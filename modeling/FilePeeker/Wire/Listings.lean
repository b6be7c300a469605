import FilePeeker.Fs.Walk
import FilePeeker.Wire.Batches

/-!
# Listings read back

`list_dir` and `walk_dir` of `client/rpc`: the batches of a response as entries again.  A
listing is read batch by batch, and one that cannot be read is one error; a walk is a stream
of its own, which keeps the entries of the batch it is in and is over with its first error.

Of what a server sends both read all that it sent, in order, and then the error it ended
with (`listings_are_lossless`).
-/

namespace FilePeeker.Wire

open FilePeeker.Path (components joined isAbsolute)
open Copy (FsError Status ClientError operationStatusError)

/-- An entry that a walk finds: its path is made of the names that lead to it, and so many
they are. -/
def HostWalkEntry.Below (entry : HostWalkEntry) : Prop :=
  ∃ names, names ≠ [] ∧ (∀ name ∈ names, IsFileName name) ∧
    entry.relativePath = .ofBytes (joined names) ∧ entry.depth = names.length

/-- **What a walk finds is below its root**: so is what a server sends of it. -/
theorem below_of_walkDir {fs : Fs.FileSystem} {path : PathString} {root : Bytes}
    {listing : Fs.Listing} {contents : Fs.Contents} {walk : Fs.Walk}
    {items : List (Except Fs.FsError Fs.WalkEntry)} {found : Fs.WalkEntry} {entry : HostWalkEntry}
    (hroot : Fs.absolute path = .ok root) (hopen : fs.readDir root = .ok listing)
    (hshows : Fs.Shows fs root listing contents) (hwalk : Fs.walkDir fs path = .ok walk)
    (hitems : Yields (Fs.Walk.next fs) (some walk) items) (hfound : .ok found ∈ items)
    (hpath : entry.relativePath = found.relativePath) (hdepth : entry.depth = found.depth) :
    entry.Below := by
  obtain ⟨walk', hwalk', hstream⟩ := Fs.walksInPreOrder fs path root listing contents hroot hopen
    hshows
  obtain rfl : walk = walk' := Except.ok.inj (hwalk.symm.trans hwalk')
  rw [(hstream items).mp hitems] at hfound
  obtain ⟨names, hne, hnames, hrelative, hlength⟩ :=
    Fs.rows_named (fun _ h => absurd h List.not_mem_nil) (mem_of_mem_upToError hfound)
  exact ⟨names, hne, hnames, hpath.trans hrelative, hdepth.trans hlength⟩

namespace Client

/-! ### Errors -/

def invalidData (message : String) : ClientError := ⟨.invalidData, message⟩

def InvalidData.toError : InvalidData → ClientError
  | .badlyEscaped what error => invalidData ("server returned an incorrectly escaped " ++ what ++
      ": " ++ String.ofList (Fs.escapeErrorText error))
  | .unknownKind kind => invalidData ("server returned unknown entry kind " ++ toString kind)
  | .unspecifiedKind => invalidData "server returned an unspecified entry kind"

/-! ### Batches -/

section Batch

variable {μ δ : Type} (kind : String) (convert : μ → Except ClientError δ)

/-- `convert_batch`. -/
def convertBatch (entries : List μ) : Except ClientError (List δ) :=
  if entries.isEmpty then
    .error (invalidData ("server returned an empty " ++ kind ++ " batch"))
  else entries.mapM convert

variable {kind convert}

theorem convertBatch_eq_ok {entries : List μ} {read : List δ} :
    convertBatch kind convert entries = .ok read ↔
      entries ≠ [] ∧ entries.map convert = read.map .ok := by
  rw [convertBatch]
  split
  · next hempty =>
    exact iff_of_false (fun h => by cases h) fun h => h.1 (List.isEmpty_iff.mp hempty)
  · next hne =>
    rw [mapM_eq_ok]
    exact (and_iff_right fun hnil => hne (List.isEmpty_iff.mpr hnil)).symm

theorem length_of_convertBatch {entries : List μ} {read : List δ}
    (h : convertBatch kind convert entries = .ok read) : read.length = entries.length := by
  have hlength := congrArg List.length (convertBatch_eq_ok.mp h).2
  rw [List.length_map, List.length_map] at hlength
  exact hlength.symm

/-- A batch is read where it is not empty and each of its entries is. -/
theorem exists_convertBatch {entries : List μ} (hne : entries ≠ [])
    (h : ∀ entry ∈ entries, ∃ d, convert entry = .ok d) :
    ∃ read, convertBatch kind convert entries = .ok read := by
  suffices hread : ∃ read : List δ, entries.map convert = read.map .ok by
    obtain ⟨read, hread⟩ := hread
    exact ⟨read, convertBatch_eq_ok.mpr ⟨hne, hread⟩⟩
  clear hne
  induction entries with
  | nil => exact ⟨[], rfl⟩
  | cons entry entries ih =>
    obtain ⟨hentry, hentries⟩ := List.forall_mem_cons.mp h
    obtain ⟨d, hd⟩ := hentry
    obtain ⟨read, hread⟩ := ih hentries
    exact ⟨d :: read, by rw [List.map_cons, List.map_cons, hd, hread]⟩

end Batch

/-! ### `list_dir` -/

def readEntry (entry : ListingEntry) : Except ClientError Entry :=
  (convertEntry entry).mapError InvalidData.toError

/-- `convert_batch` of `list_dir.rs`. -/
def convertListBatch : List ListingEntry → Except ClientError (List Entry) :=
  convertBatch "listing" readEntry

/-- What one item of a response is made. -/
def listItems (result : Except Status (List ListingEntry)) : List (Except ClientError Entry) :=
  match result.mapError operationStatusError >>= convertListBatch with
  | .ok entries => entries.map .ok
  | .error error => [.error error]

def listDir (response : List (Except Status (List ListingEntry))) :
    List (Except ClientError Entry) :=
  response.flatMap listItems

/-! ### `walk_dir` -/

structure WalkEntry where
  relativePath : PathString
  entry : Entry
  depth : Nat
deriving DecidableEq

/-- Checked on the escaped form, which has the components the real path has. -/
def validateRelativePath (path : Str) : Except ClientError Unit :=
  if path.bytes.isEmpty || isAbsolute path.bytes ||
      !(components path.bytes).all fun component => component matches .normal _ then
    .error (invalidData "server returned an invalid walk relative path")
  else .ok ()

def convertWalkEntry (entry : ProtocolWalkEntry) : Except ClientError WalkEntry := do
  validateRelativePath entry.relativePath
  if entry.depth = 0 then throw (invalidData "server returned walk depth 0")
  if maxU64 < entry.depth then
    throw (invalidData "server returned walk depth outside the client range")
  match entry.entry with
  | none => throw (invalidData "server returned a walk entry without listing metadata")
  | some nested =>
    let relativePath ← (wirePath entry.relativePath "walk relative path").mapError
      InvalidData.toError
    let nested ← readEntry nested
    return ⟨relativePath, nested, entry.depth⟩

/-- `convert_batch` of `walk_dir.rs`. -/
def convertWalkBatch : List ProtocolWalkEntry → Except ClientError (List WalkEntry) :=
  convertBatch "walk" convertWalkEntry

/-- What is still to come of the response, and what is pending of its last batch; `none`
after an error. -/
abbrev NetworkWalkState := Option (List (Except Status (List ProtocolWalkEntry)) × List WalkEntry)

/-- The loop of one step. -/
def networkWalkLoop : List (Except Status (List ProtocolWalkEntry)) → List WalkEntry →
    Pull (Except ClientError WalkEntry) NetworkWalkState
  | stream, entry :: pending => .item (.ok entry) (some (stream, pending))
  | [], [] => .done none
  | .ok batch :: stream, [] =>
    match convertWalkBatch batch with
    | .ok entries => networkWalkLoop stream entries
    | .error error => .item (.error error) none
  | .error status :: _, [] => .item (.error (operationStatusError status)) none

def networkWalkNext : NetworkWalkState → Pull (Except ClientError WalkEntry) NetworkWalkState
  | none => .done none
  | some (stream, pending) => networkWalkLoop stream pending

/-- How much there is in a response. -/
def responseSize : List (Except Status (List ProtocolWalkEntry)) → Nat
  | [] => 0
  | .ok batch :: stream => responseSize stream + (batch.length + 1)
  | .error _ :: stream => responseSize stream + 1

def NetworkWalkState.size : NetworkWalkState → Nat
  | none => 0
  | some (stream, pending) => responseSize stream + pending.length + 1

theorem size_networkWalkLoop (stream : List (Except Status (List ProtocolWalkEntry)))
    (pending : List WalkEntry) (item : Except ClientError WalkEntry) (state : NetworkWalkState)
    (h : networkWalkLoop stream pending = .item item state) :
    state.size < responseSize stream + pending.length + 1 := by
  induction stream generalizing pending with
  | nil =>
    cases pending with
    | nil => cases h
    | cons entry pending =>
      cases h
      simp [NetworkWalkState.size]
  | cons result stream ih =>
    cases pending with
    | cons entry pending =>
      rw [networkWalkLoop] at h
      cases h
      simp [NetworkWalkState.size]
    | nil =>
      cases result with
      | error status =>
        rw [networkWalkLoop] at h
        cases h
        exact Nat.succ_pos _
      | ok batch =>
        rw [networkWalkLoop] at h
        split at h
        · next entries hread =>
          have hlt := ih entries h
          rw [length_of_convertBatch hread] at hlt
          rw [responseSize, List.length_nil]
          omega
        · cases h
          exact Nat.succ_pos _

theorem networkWalkNext_smaller (s : NetworkWalkState) (item : Except ClientError WalkEntry)
    (t : NetworkWalkState) (h : networkWalkNext s = .item item t) : t.size < s.size := by
  cases s with
  | none => cases h
  | some state => exact size_networkWalkLoop state.1 state.2 item t h

def networkWalkSource : Source (Except ClientError WalkEntry) NetworkWalkState :=
  ⟨networkWalkNext, NetworkWalkState.size, networkWalkNext_smaller⟩

def networkWalkStream (response : List (Except Status (List ProtocolWalkEntry))) :
    List (Except ClientError WalkEntry) :=
  networkWalkSource.items (some (response, []))

/-! ### Every entry of a host is read -/

theorem wirePath_of_decodes {path : PathString} (h : path.Decodes) (what : String) :
    wirePath path.escaped what = .ok path := by
  obtain ⟨bytes, hbytes⟩ := h
  have hok : PathString.fromEscaped path.escaped = .ok path := fromEscaped_iff.mpr
    ⟨⟨bytes, hbytes⟩, rfl⟩
  rw [wirePath, hok, mapError_ok]

theorem exists_convertMetadata {metadata : EntryMetadata}
    (h : ∀ path, metadata.symlinkTarget = some path → path.Decodes) :
    ∃ back, convertMetadata (Server.convertMetadata metadata) = .ok back := by
  obtain ⟨size, modified, unixMode, symlinkTarget⟩ := metadata
  simp only [convertMetadata, Server.convertMetadata]
  cases symlinkTarget with
  | none => exact ⟨_, rfl⟩
  | some path =>
    by_cases hempty : path.escaped = .empty
    · simp only [Option.elim_some, hempty, if_true]
      exact ⟨_, rfl⟩
    · simp only [Option.elim_some, hempty, if_false, wirePath_of_decodes (h path rfl)]
      exact ⟨_, rfl⟩

theorem exists_readEntry (entry : HostEntry) :
    ∃ back, readEntry (Server.convertEntry entry.entry) = .ok back := by
  obtain ⟨⟨name, kind, navigable, metadata, defect⟩, hname, htarget⟩ := entry
  have hmetadata : ∃ back, (metadata.map Server.convertMetadata).mapM convertMetadata =
      .ok back := by
    cases metadata with
    | none => exact ⟨none, rfl⟩
    | some metadata =>
      obtain ⟨back, hback⟩ := exists_convertMetadata (htarget metadata rfl)
      exact ⟨some back, by rw [Option.map_some, Option.mapM_some, hback]; rfl⟩
  obtain ⟨back, hback⟩ := hmetadata
  refine ⟨⟨name, kind, navigable, back, if defect.getD "" = "" then none else
    some (defect.getD "")⟩, ?_⟩
  simp only [readEntry, convertEntry, Server.convertEntry, wirePath_of_decodes hname]
  cases kind <;> simp only [ProtocolEntryKind.toI32, ProtocolEntryKind.tryFrom, hback] <;> rfl

theorem validateRelativePath_joined {names : List Bytes} (hne : names ≠ [])
    (hnames : ∀ name ∈ names, IsFileName name) :
    validateRelativePath (PathString.ofBytes (joined names)).escaped = .ok () := by
  have hcomponents : components (escape (joined names)).bytes =
      names.map fun name => .normal (escape name).bytes := by
    rw [Path.components_escape, Fs.components_joined hnames, List.map_map]
    rfl
  have hempty : (escape (joined names)).bytes ≠ [] := fun hnil =>
    Fs.joined_ne_nil hnames hne (escape_eq_nil.mp hnil)
  have habsolute : ¬ isAbsolute (escape (joined names)).bytes := by
    intro habs
    rw [Path.components_absolute habs] at hcomponents
    obtain ⟨first, rest, rfl⟩ := List.exists_cons_of_ne_nil hne
    cases hcomponents
  rw [validateRelativePath, PathString.ofBytes, hcomponents]
  simp [hempty, habsolute]

theorem exists_convertWalkEntry {entry : HostWalkEntry} (h : entry.Below)
    {message : ProtocolWalkEntry} (hmessage : Server.convertWalkEntry entry = .ok message) :
    ∃ back, convertWalkEntry message = .ok back := by
  obtain ⟨names, hne, hnames, hpath, hdepth⟩ := h
  obtain ⟨nested, hnested⟩ := exists_readEntry entry.entry
  rw [Server.convertWalkEntry, if_pos entry.depth_le] at hmessage
  cases hmessage
  have hvalid := validateRelativePath_joined hne hnames
  rw [← hpath] at hvalid
  have hzero : entry.depth ≠ 0 := by
    rw [hdepth]
    exact fun hzero => hne (List.length_eq_zero_iff.mp hzero)
  refine ⟨⟨entry.relativePath, nested, entry.depth⟩, ?_⟩
  simp only [convertWalkEntry, hvalid, if_neg hzero, if_neg (Nat.not_lt.mpr entry.depth_le),
    wirePath_of_decodes entry.path_decodes, hnested]
  rfl

/-! ### Every batch is read -/

theorem listItems_ok {batch : List ListingEntry} {read : List Entry}
    (h : convertListBatch batch = .ok read) : listItems (.ok batch) = read.map .ok := by
  have hbind : ((.ok batch : Except Status (List ListingEntry)).mapError operationStatusError >>=
      convertListBatch) = .ok read := h
  rw [listItems, hbind]

/-- A response of batches that are read gives their entries, and then what comes after. -/
theorem listDir_batches {batches : List (List ListingEntry)}
    (hread : ∀ batch ∈ batches, ∃ read, convertListBatch batch = .ok read)
    (rest : List (Except Status (List ListingEntry))) :
    listDir (batches.map .ok ++ rest) = batches.flatten.map readEntry ++ listDir rest := by
  induction batches with
  | nil => rfl
  | cons batch batches ih =>
    obtain ⟨hbatch, hbatches⟩ := List.forall_mem_cons.mp hread
    obtain ⟨read, hread⟩ := hbatch
    rw [List.map_cons, List.cons_append, listDir, List.flatMap_cons, listItems_ok hread,
      ← listDir, ih hbatches, List.flatten_cons, List.map_append,
      (convertBatch_eq_ok.mp hread).2, List.append_assoc]

theorem items_of_next_eq {s t : NetworkWalkState} (h : networkWalkNext s = networkWalkNext t) :
    networkWalkSource.items s = networkWalkSource.items t := by
  cases hnext : networkWalkNext t with
  | done last =>
    rw [networkWalkSource.items_done (h.trans hnext), networkWalkSource.items_done hnext]
  | item item rest =>
    rw [networkWalkSource.items_item (h.trans hnext), networkWalkSource.items_item hnext]

theorem items_pending (stream : List (Except Status (List ProtocolWalkEntry)))
    (pending : List WalkEntry) : networkWalkSource.items (some (stream, pending)) =
      pending.map .ok ++ networkWalkStream stream := by
  induction pending with
  | nil => rfl
  | cons entry pending ih =>
    have hnext : networkWalkSource.next (some (stream, entry :: pending)) =
        .item (.ok entry) (some (stream, pending)) := by
      show networkWalkLoop stream (entry :: pending) = _
      rw [networkWalkLoop]
    rw [networkWalkSource.items_item hnext, ih, List.map_cons, List.cons_append]

theorem networkWalkStream_batches {batches : List (List ProtocolWalkEntry)}
    (hread : ∀ batch ∈ batches, ∃ read, convertWalkBatch batch = .ok read)
    (rest : List (Except Status (List ProtocolWalkEntry))) :
    networkWalkStream (batches.map .ok ++ rest) =
      batches.flatten.map convertWalkEntry ++ networkWalkStream rest := by
  induction batches with
  | nil => rfl
  | cons batch batches ih =>
    obtain ⟨hbatch, hbatches⟩ := List.forall_mem_cons.mp hread
    obtain ⟨read, hread⟩ := hbatch
    have hnext : networkWalkNext (some (.ok batch :: (batches.map .ok ++ rest), [])) =
        networkWalkNext (some (batches.map .ok ++ rest, read)) := by
      rw [networkWalkNext, networkWalkLoop, hread]
      rfl
    rw [List.map_cons, List.cons_append, networkWalkStream, items_of_next_eq hnext,
      items_pending, ih hbatches, List.flatten_cons, List.map_append,
      (convertBatch_eq_ok.mp hread).2, List.append_assoc]

end Client

/-! ### What a client has of a stream -/

/-- The message of an entry. -/
def listMessage (entry : HostEntry) : ListingEntry := Server.convertEntry entry.entry

def walkMessage (entry : HostWalkEntry) : ProtocolWalkEntry where
  relativePath := entry.relativePath.escaped
  entry := some (Server.convertEntry entry.entry.entry)
  depth := entry.depth

section ReadBack

open FilePeeker.Wire.Client (convertBatch exists_convertBatch)

variable {α μ δ : Type}

/-- No batch is refused, and the items of the client are what was sent, read entry by
entry, and then the error. -/
structure ReadBack (wire : α → μ) (kind : String) (convert : μ → Except ClientError δ)
    (items : List (Except ClientError δ)) (before : List α) (batches : List (List μ))
    (error : Option Status) : Prop where
  accepted : ∀ batch ∈ batches, ∃ read, convertBatch kind convert batch = .ok read
  decoded : ∃ decoded : List δ, before.map (convert ∘ wire) = decoded.map .ok ∧
    items = decoded.map .ok ++ (error.map operationStatusError).toList.map .error

variable {wire : α → μ} {encode : μ → Bytes} {tooLarge : Status}
  {stream : List (Except FsError α)} {response : List (Except Status (List μ))}
  {before : List α} {batches : List (List μ)} {error : Option Status}
  {kind : String} {convert : μ → Except ClientError δ}
  {client : List (Except Status (List μ)) → List (Except ClientError δ)}

/-- **What is sent is read back**, by a client that reads batch after batch. -/
theorem Sent.readBack (hsent : Sent wire encode tooLarge stream response before batches error)
    (hbatches : ∀ rest, (∀ batch ∈ batches, ∃ read, convertBatch kind convert batch = .ok read) →
      client (batches.map .ok ++ rest) = batches.flatten.map convert ++ client rest)
    (hnil : client [] = [])
    (herror : ∀ status, client [.error status] = [.error (operationStatusError status)])
    (hread : ∀ entry ∈ before, ∃ d, convert (wire entry) = .ok d) :
    ReadBack wire kind convert (client (upToError response)) before batches error := by
  have haccepted : ∀ batch ∈ batches, ∃ read, convertBatch kind convert batch = .ok read := by
    intro batch hbatch
    refine exists_convertBatch (hsent.bounded batch hbatch).ne_nil fun message hmessage => ?_
    have hmem : message ∈ before.map wire :=
      hsent.flatten ▸ List.mem_flatten_of_mem hbatch hmessage
    obtain ⟨entry, hentry, rfl⟩ := List.mem_map.mp hmem
    exact hread entry hentry
  have hdecoded : ∃ decoded : List δ, before.map (convert ∘ wire) = decoded.map .ok := by
    clear hsent
    induction before with
    | nil => exact ⟨[], rfl⟩
    | cons entry before ih =>
      obtain ⟨⟨d, hd⟩, hrest⟩ := List.forall_mem_cons.mp hread
      obtain ⟨decoded, hdecoded⟩ := ih hrest
      exact ⟨d :: decoded, by rw [List.map_cons, List.map_cons, hdecoded, Function.comp_apply, hd]⟩
  obtain ⟨decoded, hdecoded⟩ := hdecoded
  refine ⟨haccepted, decoded, hdecoded, ?_⟩
  rw [hsent.items, hbatches _ haccepted, hsent.flatten, List.map_map, hdecoded]
  cases error with
  | none => exact congrArg _ hnil
  | some status => exact congrArg _ (herror status)

end ReadBack

/-- **Listings in batches are bounded and lossless.**  Up to its first error, a response is
batches that are not empty and within both limits; together they are what comes of the stream
before an error of it, or an entry too large for a batch, and the response ends in an error
exactly where there is one.  A client reads of it each of those entries, in order, and then that
error; so it does of a walk, whose entries have the paths of what is below its root. -/
theorem listings_are_lossless (entries : List (Except FsError HostEntry))
    (walked : List (Except FsError HostWalkEntry)) :
    (∃ before batches error,
      Sent listMessage ListingEntry.encode Server.listTooLarge entries
        (Server.listBatches entries) before batches error ∧
      ReadBack listMessage "listing" Client.readEntry
        (Client.listDir (upToError (Server.listBatches entries))) before batches error) ∧
    ∃ before batches error,
      Sent walkMessage ProtocolWalkEntry.encode Server.walkTooLarge walked
        (Server.walkBatches walked) before batches error ∧
      ((∀ entry ∈ before, entry.Below) →
        ReadBack walkMessage "walk" Client.convertWalkEntry
          (Client.networkWalkStream (upToError (Server.walkBatches walked))) before batches
          error) := by
  constructor
  · obtain ⟨before, batches, error, hsent⟩ := sent_spec listMessage ListingEntry.encode
      Server.listTooLarge (fun _ => rfl) entries
    refine ⟨before, batches, error, hsent, hsent.readBack (fun rest hread => ?_) rfl
      (fun _ => rfl) fun entry _ => Client.exists_readEntry entry⟩
    exact Client.listDir_batches hread rest
  · have hconvert : ∀ entry, Server.convertWalkEntry entry = .ok (walkMessage entry) := fun entry =>
      if_pos entry.depth_le
    obtain ⟨before, batches, error, hsent⟩ := sent_spec walkMessage
      ProtocolWalkEntry.encode Server.walkTooLarge hconvert walked
    refine ⟨before, batches, error, hsent, fun hbelow => hsent.readBack (fun rest hread => ?_)
      ?_ (fun status => ?_) fun entry hentry => ?_⟩
    · exact Client.networkWalkStream_batches hread rest
    · exact Client.networkWalkSource.items_done rfl
    · have hnext : Client.networkWalkSource.next (some ([.error status], [])) =
          .item (.error (operationStatusError status)) none := rfl
      rw [Client.networkWalkStream, Client.networkWalkSource.items_item hnext]
      exact congrArg _ (Client.networkWalkSource.items_done rfl)
    · exact Client.exists_convertWalkEntry (hbelow entry hentry) (hconvert entry)

/-! ### A walk of a directory in a directory -/

/-- What these names lead to, where nothing could be known of it but a kind. -/
def hostWalkEntry (names : List Bytes) (fileType : FileType) (hle : names.length ≤ maxU64) :
    HostWalkEntry where
  relativePath := .ofBytes (joined names)
  entry := .ofInspected ⟨names.getLastD [], .error "Permission denied (os error 13)",
    some fileType, false, none⟩
  depth := names.length
  path_decodes := PathString.decodes_ofBytes _
  depth_le := hle

/-- `d` and `d/f`. -/
def nestedWalk : List HostWalkEntry :=
  [hostWalkEntry [[0x64]] ⟨true, false, false⟩ (by decide),
    hostWalkEntry [[0x64], [0x66]] ⟨false, true, false⟩ (by decide)]

theorem below_nestedWalk : ∀ entry ∈ nestedWalk, entry.Below :=
  List.forall_mem_cons.mpr ⟨⟨[[0x64]], by decide, by decide, rfl, rfl⟩,
    List.forall_mem_singleton.mpr ⟨[[0x64], [0x66]], by decide, by decide, rfl, rfl⟩⟩

/-- A client reads such a walk back. -/
theorem listings_are_lossless_nestedWalk : ∃ before batches error,
    Sent walkMessage ProtocolWalkEntry.encode Server.walkTooLarge (nestedWalk.map .ok)
      (Server.walkBatches (nestedWalk.map .ok)) before batches error ∧
    ReadBack walkMessage "walk" Client.convertWalkEntry
      (Client.networkWalkStream (upToError (Server.walkBatches (nestedWalk.map .ok)))) before
      batches error := by
  obtain ⟨-, before, batches, error, hsent, hread⟩ :=
    listings_are_lossless [] (nestedWalk.map .ok)
  refine ⟨before, batches, error, hsent, hread fun entry hentry => ?_⟩
  obtain ⟨found, hfound, heq⟩ := List.mem_map.mp (hsent.cut.mem hentry)
  obtain rfl : found = entry := Except.ok.inj heq
  exact below_nestedWalk found hfound

end FilePeeker.Wire
