import FilePeeker.Copy.Streams
import FilePeeker.Lib.Batches
import FilePeeker.Lib.Protobuf
import FilePeeker.Wire.Entries
import Mathlib.Algebra.Order.BigOperators.Group.List
import Mathlib.Algebra.Order.Group.Nat

/-!
# Listings in batches

`list_batches` of `server/ops/list.rs` and `walk_batches` of `server/ops/walk.rs`: the
entries of a stream as the messages of a response.  The two do the same with another entry,
and one theorem says of both what they send up to the first error (`sent_spec`).

The length of a batch is counted up entry by entry, before there is a batch.  That it is the
length the batch has once it is written, with a key and a length before each entry, is
`length_encodeBatch`.
-/

namespace FilePeeker

/-- What every path of a host is: it decodes, as the escape of a name does, and what was
checked when it was read. -/
def PathString.Decodes (path : PathString) : Prop := ∃ bytes, path.toBytes = .ok bytes

theorem PathString.decodes_ofBytes (bytes : Bytes) : (PathString.ofBytes bytes).Decodes :=
  ⟨bytes, unescape_escape bytes⟩

namespace Wire

open Batches
open Copy (FsError Code Status fsStatus)

/-- `GRPC_BATCH_MAX_BYTES`. -/
def grpcBatchMaxBytes : Nat := 1024 * 1024

/-- `GRPC_BATCH_MAX_ENTRIES`. -/
def grpcBatchMaxEntries : Nat := 1024

/-- `u64::MAX`, and `usize::MAX` where a word has 64 bits. -/
def maxU64 : Nat := 18446744073709551615

/-! ### Entries of a host -/

/-- An entry whose paths are those of a host. -/
structure HostEntry where
  entry : Entry
  name_decodes : entry.name.Decodes
  target_decodes : ∀ metadata, entry.metadata = some metadata →
    ∀ path, metadata.symlinkTarget = some path → path.Decodes

theorem inspectEntry_name (i : Inspected) : (inspectEntry i).name.Decodes := by
  rw [inspectEntry]
  split <;> exact PathString.decodes_ofBytes _

theorem inspectEntry_target (i : Inspected) :
    ∀ metadata, (inspectEntry i).metadata = some metadata →
      ∀ path, metadata.symlinkTarget = some path → path.Decodes := by
  intro metadata hmetadata path hpath
  rw [inspectEntry] at hmetadata
  split at hmetadata
  · cases hmetadata
  · cases hmetadata
    dsimp only at hpath
    split at hpath
    · obtain ⟨bytes, -, rfl⟩ := Option.map_eq_some_iff.mp hpath
      exact PathString.decodes_ofBytes bytes
    · cases hpath

/-- What a server finds is one. -/
def HostEntry.ofInspected (i : Inspected) : HostEntry :=
  ⟨inspectEntry i, inspectEntry_name i, inspectEntry_target i⟩

/-- An entry of a walk. -/
structure HostWalkEntry where
  relativePath : PathString
  entry : HostEntry
  /-- A `usize`. -/
  depth : Nat
  path_decodes : relativePath.Decodes
  depth_le : depth ≤ maxU64

structure ProtocolWalkEntry where
  relativePath : Str
  entry : Option ListingEntry
  depth : Nat
deriving DecidableEq

/-! ### Messages as bytes -/

def ProtocolEntryMetadata.encode (metadata : ProtocolEntryMetadata) : Bytes :=
  Protobuf.uint64 1 metadata.size ++ Protobuf.int64 2 metadata.modifiedUnixSeconds ++
    Protobuf.uint64 3 metadata.modifiedNanos ++ Protobuf.optional 4 metadata.unixMode ++
    Protobuf.string 5 metadata.symlinkTarget.bytes

def ListingEntry.encode (entry : ListingEntry) : Bytes :=
  Protobuf.string 1 entry.name.bytes ++ Protobuf.int64 2 entry.kind ++
    Protobuf.bool 3 entry.navigable ++ Protobuf.string 4 entry.defect.toUTF8.toList ++
    Protobuf.message 5 (entry.metadata.map ProtocolEntryMetadata.encode)

def ProtocolWalkEntry.encode (entry : ProtocolWalkEntry) : Bytes :=
  Protobuf.string 1 entry.relativePath.bytes ++
    Protobuf.message 2 (entry.entry.map ListingEntry.encode) ++ Protobuf.uint64 3 entry.depth

section Batch

variable {α μ : Type} (encode : μ → Bytes)

/-- `ListBatch` and `WalkBatch`, which have nothing but their `entries`. -/
def encodeBatch (batch : List μ) : Bytes := Protobuf.repeated 1 (batch.map encode)

/-- What an entry adds to the length of a batch. -/
def entryBytes (entry : μ) : Nat :=
  Protobuf.keyLen 1 + Protobuf.encodedLenVarint (encode entry).length + (encode entry).length

/-- A batch is as long as it was counted. -/
theorem length_encodeBatch {batch : List μ}
    (h : (batch.map (entryBytes encode)).sum ≤ grpcBatchMaxBytes) :
    (encodeBatch encode batch).length = (batch.map (entryBytes encode)).sum := by
  have hlength : ∀ payload ∈ batch.map encode, payload.length < 2 ^ 64 := by
    intro payload hpayload
    obtain ⟨entry, hentry, rfl⟩ := List.mem_map.mp hpayload
    calc (encode entry).length ≤ entryBytes encode entry := Protobuf.le_fieldLen 1 _
      _ ≤ (batch.map (entryBytes encode)).sum := List.le_sum_of_mem (List.mem_map_of_mem hentry)
      _ ≤ grpcBatchMaxBytes := h
      _ < 2 ^ 64 := by decide
  rw [encodeBatch, Protobuf.length_repeated (by decide) hlength, List.map_map]
  rfl

end Batch

/-! ### `convert_chunk` -/

namespace Server

/-- What is read of a stream: an error as a status, an entry as a message. -/
def readItem {α μ : Type} (convert : α → Except Status μ) : Except FsError α → Except Status μ
  | .ok entry => convert entry
  | .error error => .error (fsStatus error)

def listTooLarge : Status :=
  ⟨.resourceExhausted, "directory entry exceeds the gRPC listing batch limit"⟩

/-- `convert_chunk` of `list.rs`. -/
def convertListChunk (entries : List (Except FsError HostEntry)) :
    List (Except Status (List ListingEntry)) :=
  split (readItem fun entry => .ok (convertEntry entry.entry)) (entryBytes ListingEntry.encode)
    grpcBatchMaxBytes listTooLarge entries

def listBatches (stream : List (Except FsError HostEntry)) :
    List (Except Status (List ListingEntry)) :=
  (chunks grpcBatchMaxEntries stream).flatMap convertListChunk

def convertWalkEntry (entry : HostWalkEntry) : Except Status ProtocolWalkEntry :=
  if entry.depth ≤ maxU64 then
    .ok
      { relativePath := entry.relativePath.escaped
        entry := some (convertEntry entry.entry.entry)
        depth := entry.depth }
  else .error ⟨.outOfRange, "walk depth exceeds protocol range"⟩

def walkTooLarge : Status := ⟨.resourceExhausted, "walk entry exceeds the gRPC walk batch limit"⟩

/-- `convert_chunk` of `walk.rs`. -/
def convertWalkChunk (entries : List (Except FsError HostWalkEntry)) :
    List (Except Status (List ProtocolWalkEntry)) :=
  split (readItem convertWalkEntry) (entryBytes ProtocolWalkEntry.encode) grpcBatchMaxBytes
    walkTooLarge entries

def walkBatches (stream : List (Except FsError HostWalkEntry)) :
    List (Except Status (List ProtocolWalkEntry)) :=
  (chunks grpcBatchMaxEntries stream).flatMap convertWalkChunk

end Server

/-! ### What a response has of a stream -/

section Sent

variable {α μ : Type} (wire : α → μ) (encode : μ → Bytes) (tooLarge : Status)

/-- What ends a response, and with which status: an error of the stream, or an entry that is
too large for a batch. -/
inductive Ends : Except FsError α → Status → Prop
  | failed (error : FsError) : Ends (.error error) (fsStatus error)
  | tooLarge {entry : α} (h : grpcBatchMaxBytes < entryBytes encode (wire entry)) :
      Ends (.ok entry) tooLarge

/-- These entries come before what ends the response, if anything does. -/
structure Cut (stream : List (Except FsError α)) (before : List α) (error : Option Status) :
    Prop where
  fit : ∀ entry ∈ before, entryBytes encode (wire entry) ≤ grpcBatchMaxBytes
  eq : stream = before.map .ok ∧ error = none ∨ ∃ item rest status,
    stream = before.map .ok ++ item :: rest ∧ error = some status ∧
      Ends wire encode tooLarge item status

/-- A batch is not empty, and within both limits. -/
structure Bounded (batch : List μ) : Prop where
  ne_nil : batch ≠ []
  length_le : batch.length ≤ grpcBatchMaxEntries
  bytes_le : (encodeBatch encode batch).length ≤ grpcBatchMaxBytes

/-- A response, up to its first error, is these batches and then that error. -/
structure Sent (stream : List (Except FsError α)) (response : List (Except Status (List μ)))
    (before : List α) (batches : List (List μ)) (error : Option Status) : Prop where
  cut : Cut wire encode tooLarge stream before error
  items : upToError response = batches.map .ok ++ error.toList.map .error
  bounded : ∀ batch ∈ batches, Bounded encode batch
  flatten : batches.flatten = before.map wire
  error_iff : error.isSome ↔ ∃ item ∈ stream, ∃ status, Ends wire encode tooLarge item status

variable {wire encode tooLarge} {convert : α → Except Status μ}

theorem Cut.mem {stream : List (Except FsError α)} {before : List α} {error : Option Status}
    {entry : α} (h : Cut wire encode tooLarge stream before error) (hentry : entry ∈ before) :
    .ok entry ∈ stream := by
  have hmem : .ok entry ∈ before.map (Except.ok (ε := FsError)) := List.mem_map_of_mem hentry
  rcases h.eq with ⟨hstream, -⟩ | ⟨item, rest, status, hstream, -⟩
  · rw [hstream]
    exact hmem
  · rw [hstream]
    exact List.mem_append_left _ hmem

theorem accept_eq_ok (hconvert : ∀ entry, convert entry = .ok (wire entry))
    {item : Except FsError α} {b : μ} :
    accept (Server.readItem convert) (entryBytes encode) grpcBatchMaxBytes tooLarge item = .ok b ↔
      ∃ entry, item = .ok entry ∧ b = wire entry ∧
        entryBytes encode (wire entry) ≤ grpcBatchMaxBytes := by
  cases item with
  | error error =>
    refine iff_of_false (fun h => ?_) (fun h => ?_)
    · cases h
    · obtain ⟨entry, hentry, -⟩ := h
      cases hentry
  | ok entry =>
    simp only [accept, Server.readItem, hconvert]
    split
    · next hlarge =>
      refine iff_of_false (fun h => ?_) (fun h => ?_)
      · cases h
      · obtain ⟨entry', hentry, -, hle⟩ := h
        cases hentry
        exact absurd hlarge (Nat.not_lt.mpr hle)
    · next hfits =>
      constructor
      · intro h
        cases h
        exact ⟨entry, rfl, rfl, Nat.le_of_not_lt hfits⟩
      · rintro ⟨entry', hentry, rfl, -⟩
        cases hentry
        rfl

theorem accept_eq_error (hconvert : ∀ entry, convert entry = .ok (wire entry))
    {item : Except FsError α} {status : Status} :
    accept (Server.readItem convert) (entryBytes encode) grpcBatchMaxBytes tooLarge item =
      .error status ↔ Ends wire encode tooLarge item status := by
  cases item with
  | error error =>
    constructor
    · intro h
      cases h
      exact .failed error
    · rintro ⟨⟩
      rfl
  | ok entry =>
    simp only [accept, Server.readItem, hconvert]
    split
    · next hlarge =>
      constructor
      · intro h
        cases h
        exact .tooLarge hlarge
      · rintro ⟨⟩
        rfl
    · next hfits =>
      refine iff_of_false (fun h => ?_) fun h => ?_
      · cases h
      · cases h with
        | tooLarge hlarge => exact hfits hlarge

/-- What is accepted is entries that fit. -/
theorem entries_of_accepted (hconvert : ∀ entry, convert entry = .ok (wire entry))
    {items : List (Except FsError α)} {bs : List μ}
    (h : items.map (accept (Server.readItem convert) (entryBytes encode) grpcBatchMaxBytes
      tooLarge) = bs.map .ok) :
    ∃ entries : List α, items = entries.map .ok ∧ bs = entries.map wire ∧
      ∀ entry ∈ entries, entryBytes encode (wire entry) ≤ grpcBatchMaxBytes := by
  induction items generalizing bs with
  | nil =>
    cases bs with
    | nil => exact ⟨[], rfl, rfl, fun entry hentry => by cases hentry⟩
    | cons b bs => cases h
  | cons item items ih =>
    cases bs with
    | nil => cases h
    | cons b bs =>
      rw [List.map_cons, List.map_cons, List.cons.injEq] at h
      obtain ⟨entry, rfl, rfl, hfits⟩ := (accept_eq_ok hconvert).mp h.1
      obtain ⟨entries, rfl, rfl, hall⟩ := ih h.2
      exact ⟨entry :: entries, rfl, rfl, List.forall_mem_cons.mpr ⟨hfits, hall⟩⟩

variable (wire encode tooLarge)

/-- **What is sent**, where every entry has a message. -/
theorem sent_spec (hconvert : ∀ entry, convert entry = .ok (wire entry))
    (stream : List (Except FsError α)) : ∃ before sent error,
      Sent wire encode tooLarge stream
        (batches (Server.readItem convert) (entryBytes encode) grpcBatchMaxBytes tooLarge
          grpcBatchMaxEntries stream) before sent error := by
  obtain ⟨sent, hitems, hflatten, hwithin⟩ := batches_spec (Server.readItem convert)
    (entryBytes encode) grpcBatchMaxBytes tooLarge (show 0 < grpcBatchMaxEntries by decide) stream
  obtain ⟨items, rest, hcut, hitemsMap, hrest⟩ := exists_leading
    (accept (Server.readItem convert) (entryBytes encode) grpcBatchMaxBytes tooLarge) stream
  obtain ⟨before, rfl, hbefore, hfit⟩ := entries_of_accepted hconvert hitemsMap
  refine ⟨before, sent, _, ⟨hfit, ?_⟩, hitems, fun batch hbatch => ?_, hflatten.trans hbefore, ?_⟩
  · rcases hrest with ⟨rfl, hnone⟩ | ⟨item, tail, status, rfl, hitem, hsome⟩
    · exact .inl ⟨hcut.trans (List.append_nil _), hnone⟩
    · exact .inr ⟨item, tail, status, hcut, hsome, (accept_eq_error hconvert).mp hitem⟩
  · obtain ⟨⟨hne, hsum⟩, hlength⟩ := hwithin batch hbatch
    exact ⟨hne, hlength, (length_encodeBatch encode hsum).trans_le hsum⟩
  · simp only [failure_isSome, accept_eq_error hconvert]

end Sent

end Wire

end FilePeeker
