import FilePeeker.Copy.Streams

/-!
# A copy is exact, and commits on a clean end

The four streams one after the other give the bytes of the file, however it was cut
(`copy_pipeline`).  What carries this: each of them cuts non-empty pieces of at most the
wire limit, and the pieces put together are what came in (`Pieces`).

The last stream ends without an error on the frames that say so themselves: data
frames that are neither empty nor too long, one commit, and the end (`Committed`).  On any
other frames its last item is an error (`validated_of_not_committed`), and nothing is
published (`not_published`).
-/

namespace FilePeeker

namespace Copy

variable {bytes data : Bytes} {chunks pieces : List Bytes} {pending : Option Bytes}
  {frame : WriteFrame} {frames : List (Except Status WriteFrame)} {header : WriteHeader}
  {status : Status} {disk : Disk}

/-! ### Cutting -/

/-- Pieces as the wire takes them. -/
def Pieces (pieces : List Bytes) : Prop :=
  ∀ piece ∈ pieces, piece ≠ [] ∧ piece.length ≤ fileDataChunkMaxBytes

theorem Pieces.cons (h : Pieces pieces) (hne : bytes ≠ [])
    (hle : bytes.length ≤ fileDataChunkMaxBytes) : Pieces (bytes :: pieces) := by
  intro piece hp
  rcases List.mem_cons.mp hp with rfl | hp
  · exact ⟨hne, hle⟩
  · exact h piece hp

theorem take_ne_nil (h : bytes ≠ []) : bytes.take fileDataChunkMaxBytes ≠ [] := by
  cases bytes with
  | nil => exact absurd rfl h
  | cons c bytes => exact List.cons_ne_nil _ _

theorem take_length_le (bytes : Bytes) :
    (bytes.take fileDataChunkMaxBytes).length ≤ fileDataChunkMaxBytes :=
  List.length_take_le ..

/-- What is split off and what is left. -/
theorem take_pendingAfter (bytes : Bytes) :
    bytes.take fileDataChunkMaxBytes ++ (pendingAfter bytes).getD [] = bytes := by
  have hsplit := List.take_append_drop fileDataChunkMaxBytes bytes
  rw [pendingAfter]
  split_ifs with h
  · rw [h] at hsplit
    exact hsplit
  · exact hsplit

theorem pendingAfter_ne_nil {rest : Bytes} (h : pendingAfter bytes = some rest) : rest ≠ [] := by
  simp only [pendingAfter, Option.ite_none_left_eq_some, Option.some.injEq] at h
  obtain ⟨hne, rfl⟩ := h
  exact hne

/-! ### Reading -/

theorem readChunks_pieces (state : ReadState) : ∀ {chunks : List Bytes} {pending : Option Bytes},
    state = some (chunks.map .ok, pending) → (∀ chunk ∈ chunks, chunk ≠ []) →
    (∀ bytes, pending = some bytes → bytes ≠ []) →
    ∃ pieces : List Bytes, readChunksSource.items state = pieces.map (fun piece => .ok ⟨piece⟩) ∧
      pieces.flatten = pending.getD [] ++ chunks.flatten ∧ Pieces pieces := by
  induction state using readChunksSource.drain_induction with
  | done s t h =>
    rintro chunks pending rfl hchunks hpending
    match chunks, pending, h with
    | [], none, h => exact ⟨[], by rw [readChunksSource.items_done h]; rfl, rfl, by simp [Pieces]⟩
  | item s b t h ih =>
    intro chunks pending hs hchunks hpending
    -- One piece of some bytes goes out; the rest of them is pending.
    have hcut (bytes : Bytes) (left : List Bytes) (hne : bytes ≠ [])
        (hleft : ∀ chunk ∈ left, chunk ≠ [])
        (hchunk : readChunksNext.chunk (left.map .ok) bytes = .item b t) :
        ∃ pieces : List Bytes, readChunksSource.items s = pieces.map (fun piece => .ok ⟨piece⟩) ∧
          pieces.flatten = bytes ++ left.flatten ∧ Pieces pieces := by
      obtain ⟨rfl, rfl⟩ := Pull.item.inj hchunk
      obtain ⟨pieces, hitems, hflat, hpieces⟩ :=
        ih rfl hleft fun rest hrest => pendingAfter_ne_nil hrest
      refine ⟨bytes.take fileDataChunkMaxBytes :: pieces, ?_, ?_, ?_⟩
      · rw [readChunksSource.items_item h, hitems, List.map_cons]
      · rw [List.flatten_cons, hflat, ← List.append_assoc, take_pendingAfter]
      · exact hpieces.cons (take_ne_nil hne) (take_length_le bytes)
    rw [hs] at h
    match chunks, pending, h, hchunks, hpending with
    | chunks, some bytes, h, hchunks, hpending =>
      exact hcut bytes chunks (hpending bytes rfl) hchunks h
    | chunk :: chunks, none, h, hchunks, hpending =>
      exact hcut chunk chunks (hchunks chunk (by simp)) (fun c hc => hchunks c (by simp [hc])) h

theorem networkRead_pieces (h : Pieces pieces) :
    networkReadStream (pieces.map fun piece => .ok ⟨piece⟩) = pieces.map .ok := by
  induction pieces with
  | nil => exact networkReadSource.items_done rfl
  | cons piece pieces ih =>
    have hne := (h piece (by simp)).1
    have hnext : networkReadSource.next (some (.ok ⟨piece⟩ :: pieces.map fun p => .ok ⟨p⟩)) =
        .item (.ok piece) (some (pieces.map fun p => .ok ⟨p⟩)) := if_neg hne
    rw [List.map_cons, networkReadStream, networkReadSource.items_item hnext, List.map_cons]
    exact congrArg _ (ih fun p hp => h p (by simp [hp]))

/-! ### Committing -/

/-- Data frames that are neither empty nor too long, one commit, and the end; with
the data they carry. -/
inductive Committed : List (Except Status WriteFrame) → List Bytes → Prop
  | commit : Committed [.ok ⟨some .commit⟩] []
  | data {data : Bytes} {frames : List (Except Status WriteFrame)} {rest : List Bytes}
      (hne : data ≠ []) (hle : data.length ≤ fileDataChunkMaxBytes)
      (hrest : Committed frames rest) : Committed (.ok ⟨some (.data data)⟩ :: frames) (data :: rest)

theorem validated_data (hne : data ≠ []) (hle : data.length ≤ fileDataChunkMaxBytes) :
    validatedDataStream (.ok ⟨some (.data data)⟩ :: frames) =
      .ok data :: validatedDataStream frames := by
  have hnext : validatedNext (some (.ok ⟨some (.data data)⟩ :: frames)) =
      .item (.ok data) (some frames) := (if_neg hne).trans (if_pos hle)
  exact validatedSource.items_item hnext

theorem validated_commit : validatedDataStream [.ok ⟨some .commit⟩] = [] :=
  validatedSource.items_done rfl

/-- After an error the stream is over. -/
theorem validated_error {error : FsError}
    (h : validatedNext (some frames) = .item (.error error) none) :
    validatedDataStream frames = [.error error] := by
  rw [validatedDataStream, validatedSource.items_item h]
  exact congrArg _ (validatedSource.items_done rfl)

theorem validated_of_committed {sent : List Bytes} (h : Committed frames sent) :
    validatedDataStream frames = sent.map .ok := by
  induction h with
  | commit => exact validated_commit
  | data hne hle _ ih => rw [validated_data hne hle, ih, List.map_cons]

/-- On any other frames the data goes out as it came, and then an error. -/
theorem validated_of_not_committed (h : ∀ sent, ¬ Committed frames sent) :
    ∃ (sent : List Bytes) (error : FsError),
      validatedDataStream frames = sent.map .ok ++ [.error error] := by
  have hstop {frames : List (Except Status WriteFrame)} {error : FsError}
      (h : validatedNext (some frames) = .item (.error error) none) :
      ∃ (sent : List Bytes) (error : FsError),
        validatedDataStream frames = sent.map .ok ++ [.error error] :=
    ⟨[], error, validated_error h⟩
  induction frames with
  | nil => exact hstop rfl
  | cons item frames ih =>
    match item with
    | .error status => exact hstop rfl
    | .ok ⟨none⟩ => exact hstop rfl
    | .ok ⟨some (.header header)⟩ => exact hstop rfl
    | .ok ⟨some .commit⟩ =>
      match frames with
      | [] => exact absurd .commit (h [])
      | .ok frame :: frames => exact hstop rfl
      | .error status :: frames => exact hstop rfl
    | .ok ⟨some (.data data)⟩ =>
      by_cases hne : data = []
      · exact hstop (if_pos hne)
      · by_cases hle : data.length ≤ fileDataChunkMaxBytes
        · obtain ⟨sent, error, hrest⟩ := ih fun sent hsent => h _ (.data hne hle hsent)
          exact ⟨data :: sent, error, by rw [validated_data hne hle, hrest]; rfl⟩
        · exact hstop ((if_neg hne).trans (if_neg hle))

/-- A stream that ends without an error. -/
def EndsWell (items : List (Except FsError Bytes)) : Prop := ∀ item ∈ items, ∃ data, item = .ok data

theorem endsWell_iff : EndsWell (validatedDataStream frames) ↔ ∃ sent, Committed frames sent := by
  constructor
  · intro h
    by_contra hnone
    obtain ⟨sent, error, heq⟩ := validated_of_not_committed (not_exists.mp hnone)
    obtain ⟨data, hdata⟩ := h (.error error) (by simp [heq])
    cases hdata
  · rintro ⟨sent, hsent⟩ item hitem
    rw [validated_of_committed hsent] at hitem
    obtain ⟨data, -, rfl⟩ := List.mem_map.mp hitem
    exact ⟨data, rfl⟩

/-! ### Requesting -/

theorem send_eq {r : Request} {source : List (Except ClientError Bytes)}
    (h : r.bytesSent + bytes.length < 2 ^ 64) : Request.next.send r source bytes =
      .item ⟨some (.data (bytes.take fileDataChunkMaxBytes))⟩ { r with
        state := .data source (pendingAfter bytes)
        bytesSent := r.bytesSent + (bytes.take fileDataChunkMaxBytes).length } := by
  have hle : (bytes.take fileDataChunkMaxBytes).length ≤ bytes.length := List.length_take_le' ..
  exact if_pos (by omega)

/-- While the source has no error and no empty chunk, and the count fits, the next frame
commits, or it has the first piece of what is left. -/
theorem next_cases {r : Request} (hstate : r.state = .data (chunks.map .ok) pending)
    (hchunks : ∀ chunk ∈ chunks, chunk ≠ []) (hpending : ∀ bytes, pending = some bytes → bytes ≠ [])
    (hfits : r.bytesSent + (pending.getD [] ++ chunks.flatten).length < 2 ^ 64) :
    (pending.getD [] ++ chunks.flatten = [] ∧
        r.next = .item ⟨some .commit⟩ { r with state := .done }) ∨
      ∃ (bytes : Bytes) (left : List Bytes), bytes ≠ [] ∧ (∀ chunk ∈ left, chunk ≠ []) ∧
        pending.getD [] ++ chunks.flatten = bytes ++ left.flatten ∧
        r.next = .item ⟨some (.data (bytes.take fileDataChunkMaxBytes))⟩ { r with
          state := .data (left.map .ok) (pendingAfter bytes)
          bytesSent := r.bytesSent + (bytes.take fileDataChunkMaxBytes).length } := by
  obtain ⟨state, sourceError, bytesSent⟩ := r
  change state = _ at hstate
  subst hstate
  match chunks, pending, hchunks, hpending, hfits with
  | chunks, some bytes, hchunks, hpending, hfits =>
    refine .inr ⟨bytes, chunks, hpending bytes rfl, hchunks, rfl, send_eq ?_⟩
    simp only [Option.getD_some, List.length_append] at hfits ⊢
    omega
  | [], none, _, _, _ => exact .inl ⟨rfl, rfl⟩
  | chunk :: chunks, none, hchunks, _, hfits =>
    have hne := hchunks chunk (by simp)
    refine .inr ⟨chunk, chunks, hne, fun c hc => hchunks c (by simp [hc]), by simp, ?_⟩
    refine (if_neg hne).trans (send_eq ?_)
    simp only [Option.getD_none, List.nil_append, List.flatten_cons, List.length_append] at hfits ⊢
    omega

/-- The frames such a source makes are committed ones, with its bytes. -/
theorem request_committed (r : Request) : ∀ {chunks : List Bytes} {pending : Option Bytes},
    r.state = .data (chunks.map .ok) pending → (∀ chunk ∈ chunks, chunk ≠ []) →
    (∀ bytes, pending = some bytes → bytes ≠ []) →
    r.bytesSent + (pending.getD [] ++ chunks.flatten).length < 2 ^ 64 →
    ∃ sent, Committed ((requestSource.items r).map .ok) sent ∧
      sent.flatten = pending.getD [] ++ chunks.flatten := by
  induction r using requestSource.drain_induction with
  | done r t h =>
    intro chunks pending hstate hchunks hpending hfits
    have h : r.next = .done t := h
    rcases next_cases hstate hchunks hpending hfits with ⟨-, hnext⟩ | ⟨_, _, -, -, -, hnext⟩
    all_goals
      rw [h] at hnext
      cases hnext
  | item r b t h ih =>
    intro chunks pending hstate hchunks hpending hfits
    have hitems := requestSource.items_item h
    have h : r.next = .item b t := h
    rcases next_cases hstate hchunks hpending hfits with
      ⟨hnil, hnext⟩ | ⟨bytes, left, hne, hleft, hall, hnext⟩
    · obtain ⟨rfl, rfl⟩ := Pull.item.inj (h.symm.trans hnext)
      refine ⟨[], ?_, hnil.symm⟩
      rw [hitems, requestSource.items_done rfl]
      exact .commit
    · obtain ⟨rfl, rfl⟩ := Pull.item.inj (h.symm.trans hnext)
      have hcut := take_pendingAfter bytes
      obtain ⟨sent, hsent, hflat⟩ := ih rfl hleft (fun rest hrest => pendingAfter_ne_nil hrest) (by
        have hlen := congrArg List.length hcut
        rw [hall] at hfits
        simp only [List.length_append] at hlen hfits ⊢
        omega)
      refine ⟨bytes.take fileDataChunkMaxBytes :: sent, ?_, ?_⟩
      · rw [hitems, List.map_cons]
        exact .data (take_ne_nil hne) (take_length_le bytes) hsent
      · rw [List.flatten_cons, hflat, hall, ← List.append_assoc, hcut]

/-! ### Publishing -/

variable {source : List (Except FsError Bytes)} {result : Nat × Bytes} {turn bytesWritten : Nat}
  {written : Bytes}

/-- One turn of the loop that goes well. -/
theorem writeSource_cons {item : Except FsError Bytes}
    (h : writeSource disk turn bytesWritten written (item :: source) = .ok result) :
    ∃ chunk, item = .ok chunk ∧ writeSource disk (turn + 1) (bytesWritten + chunk.length)
      (written ++ chunk) source = .ok result := by
  rw [writeSource] at h
  obtain ⟨_, -, h⟩ := bind_eq_ok h
  obtain ⟨chunk, hchunk, h⟩ := bind_eq_ok h
  refine ⟨chunk, hchunk, ?_⟩
  by_cases hne : chunk = []
  · rw [if_pos hne] at h
    cases h
  · rw [if_neg hne] at h
    by_cases hfits : bytesWritten + chunk.length < 2 ^ 64
    · rw [if_neg (not_not_intro hfits)] at h
      obtain ⟨_, -, h⟩ := bind_eq_ok h
      exact h
    · rw [if_pos hfits] at h
      cases h

/-- What is written in full is all of a source without an error, and is counted right. -/
theorem writeSource_ok (h : writeSource disk turn bytesWritten written source = .ok result) :
    ∃ sent : List Bytes, source = sent.map .ok ∧
      result = (bytesWritten + sent.flatten.length, written ++ sent.flatten) := by
  induction source generalizing turn bytesWritten written with
  | nil =>
    rw [writeSource] at h
    obtain ⟨_, -, h⟩ := bind_eq_ok h
    obtain rfl := Except.ok.inj h
    exact ⟨[], rfl, by simp⟩
  | cons item source ih =>
    obtain ⟨chunk, rfl, hrest⟩ := writeSource_cons h
    obtain ⟨sent, rfl, rfl⟩ := ih hrest
    refine ⟨chunk :: sent, rfl, ?_⟩
    rw [List.flatten_cons, List.length_append, Nat.add_assoc, List.append_assoc]

/-- What `write_file` publishes is the whole of a source that ends without an error. -/
theorem writeFile_ok (h : writeFile disk source = .ok result) :
    ∃ sent : List Bytes, source = sent.map .ok ∧
      result = (sent.flatten.length, sent.flatten) := by
  obtain ⟨_, -, h⟩ := bind_eq_ok h
  obtain ⟨written, hwritten, h⟩ := bind_eq_ok h
  obtain ⟨_, -, h⟩ := bind_eq_ok h
  obtain ⟨_, -, h⟩ := bind_eq_ok h
  obtain rfl := Except.ok.inj h
  simpa using writeSource_ok hwritten

/-- A source with an error in it is not published, whatever the disk does. -/
theorem not_published {sent : List Bytes} {error : FsError} (disk : Disk) :
    ∃ e, writeFile disk (sent.map .ok ++ [.error error]) = .error e := by
  cases hwrite : writeFile disk (sent.map .ok ++ [.error error]) with
  | error e => exact ⟨e, rfl⟩
  | ok result =>
    obtain ⟨data, hdata, -⟩ := writeFile_ok hwrite
    have hmem : .error error ∈ data.map Except.ok := hdata ▸ by simp
    simp at hmem

/-! ### The pipeline -/

/-- A regular file, whose length is a `u64`. -/
structure SourceFile where
  content : Bytes
  length_lt : content.length < 2 ^ 64

/-- How a `ReadStream` may cut a file: into bytes that are not empty, in their order. -/
structure Chunking (content : Bytes) where
  chunks : List Bytes
  nonempty : ∀ chunk ∈ chunks, chunk ≠ []
  whole : chunks.flatten = content

/-- The frames the client sends for the chunks that the source's server reads. -/
def requestFrames (chunks : List Bytes) (header : WriteHeader) : List WriteFrame :=
  requestStream (networkReadStream (readChunks (chunks.map .ok))) header

/-- What the destination's server makes of the frames after the header. -/
def copied (chunks : List Bytes) (header : WriteHeader) : List (Except FsError Bytes) :=
  validatedDataStream ((requestFrames chunks header).tail.map .ok)

/-- The frames of a copy: the header, and committed ones with the bytes of the file. -/
theorem requestFrames_committed (file : SourceFile) (chunking : Chunking file.content)
    (header : WriteHeader) : ∃ frames sent,
      requestFrames chunking.chunks header = ⟨some (.header header)⟩ :: frames ∧
        Committed (frames.map .ok) sent ∧ sent.flatten = file.content := by
  obtain ⟨pieces, hread, hflat, hpieces⟩ :=
    readChunks_pieces (some (chunking.chunks.map .ok, none)) rfl chunking.nonempty
      (fun bytes h => by cases h)
  have hflat : pieces.flatten = file.content := by
    rw [hflat, chunking.whole]
    rfl
  have hsource : networkReadStream (readChunks (chunking.chunks.map .ok)) = pieces.map .ok := by
    rw [readChunks, hread, networkRead_pieces hpieces]
  obtain ⟨sent, hsent, hbytes⟩ := request_committed ⟨.data (pieces.map .ok) none, none, 0⟩ rfl
    (fun piece hp => (hpieces piece hp).1) (fun bytes h => by cases h) (by
      rw [Option.getD_none, List.nil_append, hflat, Nat.zero_add]
      exact file.length_lt)
  refine ⟨_, sent, ?_, hsent, hbytes.trans hflat⟩
  rw [requestFrames, hsource, requestStream]
  exact requestSource.items_item rfl

/-- **A copy is exact, and commits exactly on a clean end.**  The bytes of a file come
out of the pipeline as they went in, however they were cut.  And on any frames after the
header, the destination's source ends without an error if and only if they are data
frames in the limit, one commit and the end, and then it has the data of the frames;
otherwise its last item is an error, and nothing is published. -/
theorem copy_pipeline (file : SourceFile) (chunking : Chunking file.content)
    (header : WriteHeader) (frames : List (Except Status WriteFrame)) :
    (∃ sent : List Bytes, copied chunking.chunks header = sent.map .ok ∧
        sent.flatten = file.content) ∧
      (EndsWell (validatedDataStream frames) ↔ ∃ sent, Committed frames sent) ∧
      (∀ sent, Committed frames sent → validatedDataStream frames = sent.map .ok) ∧
      ((¬ ∃ sent, Committed frames sent) →
        (∃ error, (validatedDataStream frames).getLast? = some (.error error)) ∧
          ∀ disk, ∃ error, writeFile disk (validatedDataStream frames) = .error error) := by
  refine ⟨?_, endsWell_iff, fun sent => validated_of_committed, fun hnone => ?_⟩
  · obtain ⟨frames, sent, hframes, hsent, hbytes⟩ := requestFrames_committed file chunking header
    refine ⟨sent, ?_, hbytes⟩
    rw [copied, hframes, List.tail_cons, validated_of_committed hsent]
  · obtain ⟨sent, error, hstream⟩ := validated_of_not_committed (not_exists.mp hnone)
    rw [hstream]
    exact ⟨⟨error, List.getLast?_concat ..⟩, not_published⟩

/-- So many times the same byte. -/
def repeated (n : Nat) : Bytes := List.replicate n 7

/-- A file that is read in one chunk over the limit of a frame, and a short one. -/
def largeFile : SourceFile where
  content := repeated 70000 ++ [8]
  length_lt := by
    rw [List.length_append, repeated, List.length_replicate]
    decide

def largeChunking : Chunking largeFile.content where
  chunks := [repeated 70000, [8]]
  nonempty := List.forall_mem_cons.mpr
    ⟨List.ne_nil_of_length_pos (by rw [repeated, List.length_replicate]; decide),
      List.forall_mem_singleton.mpr (List.cons_ne_nil _ _)⟩
  whole := rfl

/-- It comes out whole, and a destination that is sent no commit ends in an error. -/
theorem copy_pipeline_largeFile :
    (∃ sent : List Bytes, copied largeChunking.chunks ⟨.empty, .empty, 0⟩ = sent.map .ok ∧
        sent.flatten = largeFile.content) ∧
      (∃ chunk ∈ largeChunking.chunks, fileDataChunkMaxBytes < chunk.length) ∧
      ¬ EndsWell (validatedDataStream [.ok ⟨some (.data [8])⟩]) := by
  obtain ⟨hwhole, hends, -⟩ := copy_pipeline largeFile largeChunking ⟨.empty, .empty, 0⟩
    [.ok ⟨some (.data [8])⟩]
  refine ⟨hwhole, ⟨_, List.mem_cons_self, ?_⟩, fun h => ?_⟩
  · rw [repeated, List.length_replicate]
    decide
  · obtain ⟨sent, hsent⟩ := hends.mp h
    cases hsent with
    | data _ _ hrest => cases hrest

/-! ### A read that fails -/

/-- After an error of its source, `request_stream` ends, and has committed nothing. -/
theorem commit_not_mem (r : Request) : ∀ {source : List (Except ClientError Bytes)}
    {pending : Option Bytes} {error : ClientError}, r.state = .data source pending →
    .error error ∈ source → (⟨some .commit⟩ : WriteFrame) ∉ requestSource.items r := by
  induction r using requestSource.drain_induction with
  | done r t h =>
    intro source pending error hstate herror
    rw [requestSource.items_done h]
    simp
  | item r b t h ih =>
    intro source pending error hstate herror
    have hitems := requestSource.items_item h
    have h : r.next = .item b t := h
    rw [Request.next, hstate] at h
    -- A piece goes out, and the error is still ahead.
    have hsend (bytes : Bytes) (left : List (Except ClientError Bytes)) (hleft : .error error ∈ left)
        (hb : Request.next.send r left bytes = .item b t) :
        (⟨some .commit⟩ : WriteFrame) ∉ requestSource.items r := by
      simp only [Request.next.send] at hb
      split at hb
      · obtain ⟨rfl, rfl⟩ := Pull.item.inj hb
        rw [hitems, List.mem_cons, not_or]
        exact ⟨by simp, ih rfl hleft⟩
      · cases hb
    match source, pending, h, herror with
    | source, some bytes, h, herror => exact hsend bytes source herror h
    | .ok bytes :: source, none, h, herror =>
      simp only at h
      split at h
      · cases h
      · exact hsend bytes source (by simpa using herror) h

theorem Committed.commit_mem {sent : List Bytes} (h : Committed frames sent) :
    .ok ⟨some .commit⟩ ∈ frames := by
  induction h with
  | commit => exact List.mem_singleton_self _
  | data _ _ _ ih => exact List.mem_cons_of_mem _ ih

/-- A file whose reading fails on the way is never published in part. -/
theorem failed_read_not_published {source : List (Except ClientError Bytes)} {error : ClientError}
    (h : .error error ∈ source) (header : WriteHeader) (disk : Disk) :
    ∃ e, writeFile disk (validatedDataStream ((requestStream source header).tail.map .ok)) =
      .error e := by
  have htail :
      (requestStream source header).tail = requestSource.items ⟨.data source none, none, 0⟩ :=
    congrArg List.tail (requestSource.items_item rfl)
  have hnone : ∀ sent, ¬ Committed ((requestStream source header).tail.map .ok) sent := by
    intro sent hsent
    obtain ⟨frame, hmem, heq⟩ := List.mem_map.mp hsent.commit_mem
    obtain rfl := Except.ok.inj heq
    rw [htail] at hmem
    exact commit_not_mem _ rfl h hmem
  obtain ⟨sent, e, hstream⟩ := validated_of_not_committed hnone
  rw [hstream]
  exact not_published disk

end Copy

end FilePeeker
