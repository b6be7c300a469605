import FilePeeker.Copy.Exchange

/-!
# The frames of a write

What each poll of the client's frames gives, and what all of them come to: a commit is the
last of them, and comes after all of the source (`whole_of_commit`).
-/

namespace FilePeeker

open FilePeeker.Path

namespace Copy

variable {source : List (Except ClientError Bytes)} {pending : Option Bytes} {r r' : Request}
  {frame : WriteFrame} {bytes written : Bytes} {datas : List Bytes} {target : Target}

def commitFrame : WriteFrame := ⟨some .commit⟩

def dataFrame (data : Bytes) : WriteFrame := ⟨some (.data data)⟩

/-- The data a frame carries. -/
def WriteFrame.dataBytes (frame : WriteFrame) : Bytes :=
  match frame.payload with
  | some (.data data) => data
  | _ => []

/-- All of a source that has no error, and no empty chunk. -/
def IsWhole (source : List (Except ClientError Bytes)) (written : Bytes) : Prop :=
  ∃ chunks : List Bytes, source = chunks.map .ok ∧ (∀ chunk ∈ chunks, chunk ≠ []) ∧
    written = chunks.flatten

/-! ### A poll of the frames -/

theorem send_inv (h : Request.next.send r source bytes = .item frame r') :
    frame = dataFrame (bytes.take fileDataChunkMaxBytes) ∧
      r' = { r with
        state := .data source (pendingAfter bytes)
        bytesSent := r.bytesSent + (bytes.take fileDataChunkMaxBytes).length } := by
  simp only [Request.next.send] at h
  split at h
  · obtain ⟨rfl, rfl⟩ := Pull.item.inj h
    exact ⟨rfl, rfl⟩
  · cases h

/-- What a frame was made of. -/
inductive Polls (r : Request) : WriteFrame → Request → Prop
  | header {source : List (Except ClientError Bytes)} {header : WriteHeader}
      (hstate : r.state = .header source header) :
      Polls r ⟨some (.header header)⟩ { r with state := .data source none }
  | piece {source left : List (Except ClientError Bytes)} {pending : Option Bytes} {bytes : Bytes}
      (hstate : r.state = .data source pending)
      (hbytes : pending = some bytes ∧ left = source ∨
        pending = none ∧ source = .ok bytes :: left ∧ bytes ≠ []) :
      Polls r (dataFrame (bytes.take fileDataChunkMaxBytes)) { r with
        state := .data left (pendingAfter bytes)
        bytesSent := r.bytesSent + (bytes.take fileDataChunkMaxBytes).length }
  | commit (hstate : r.state = .data [] none) : Polls r commitFrame { r with state := .done }

theorem polls_of_next (h : r.next = .item frame r') : Polls r frame r' := by
  obtain ⟨state, sourceError, bytesSent⟩ := r
  match state, h with
  | .header source header, h =>
    obtain ⟨rfl, rfl⟩ := Pull.item.inj h
    exact .header rfl
  | .data source (some bytes), h =>
    obtain ⟨rfl, rfl⟩ := send_inv h
    exact .piece rfl (.inl ⟨rfl, rfl⟩)
  | .data [] none, h =>
    obtain ⟨rfl, rfl⟩ := Pull.item.inj h
    exact .commit rfl
  | .data (.ok bytes :: source) none, h =>
    simp only [Request.next] at h
    split at h
    · cases h
    · next hne =>
      obtain ⟨rfl, rfl⟩ := send_inv h
      exact .piece rfl (.inr ⟨rfl, rfl, hne⟩)

theorem Polls.bytesSent (h : Polls r frame r') :
    r'.bytesSent = r.bytesSent + frame.dataBytes.length := by
  cases h with
  | header | commit => rfl
  | piece => rfl

theorem Polls.sourceError (h : Polls r frame r') : r'.sourceError = r.sourceError := by
  cases h <;> rfl

theorem Polls.done_of_commit (h : Polls r commitFrame r') : r'.state = .done := by
  generalize hframe : commitFrame = frame at h
  cases h with
  | header | piece => cases hframe
  | commit => rfl

theorem next_of_done (h : r.state = .done) : r.next = .done r := by
  rw [Request.next, h]

theorem bytesSent_of_send (h : Request.next.send r source bytes = .done r') :
    r'.bytesSent = r.bytesSent := by
  simp only [Request.next.send] at h
  split at h
  · cases h
  · obtain rfl := Pull.done.inj h
    rfl

/-- When the frames end, no more was sent. -/
theorem bytesSent_of_next (h : r.next = .done r') : r'.bytesSent = r.bytesSent := by
  obtain ⟨state, sourceError, bytesSent⟩ := r
  match state, h with
  | .data source (some bytes), h => exact bytesSent_of_send h
  | .data (.error error :: _) none, h =>
    obtain rfl := Pull.done.inj h
    rfl
  | .data (.ok bytes :: source) none, h =>
    simp only [Request.next] at h
    split at h
    · obtain rfl := Pull.done.inj h
      rfl
    · exact bytesSent_of_send h
  | .done, h =>
    obtain rfl := Pull.done.inj h
    rfl

/-! ### The commit comes last, and after all of the source -/

theorem IsWhole.flatten_getD (h : pendingAfter bytes = pending) :
    bytes.take fileDataChunkMaxBytes ++ pending.getD [] = bytes := by
  rw [← h]
  exact take_pendingAfter bytes

theorem whole_of_commit (r : Request) : ∀ {source : List (Except ClientError Bytes)}
    {pending : Option Bytes} {datas : List Bytes}, r.state = .data source pending →
    datas.map dataFrame ++ [commitFrame] <+: requestSource.items r →
    (∃ chunks : List Bytes, source = chunks.map .ok ∧ (∀ chunk ∈ chunks, chunk ≠ []) ∧
        datas.flatten = pending.getD [] ++ chunks.flatten) ∧
      requestSource.items r = datas.map dataFrame ++ [commitFrame] := by
  induction r using requestSource.drain_induction with
  | done r t h =>
    intro source pending datas hstate hpre
    rw [requestSource.items_done h, List.prefix_nil] at hpre
    exact absurd hpre (List.append_ne_nil_of_right_ne_nil _ (List.cons_ne_nil _ _))
  | item r frame t h ih =>
    intro source pending datas hstate hpre
    rw [requestSource.items_item h] at hpre ⊢
    have hpolls : Polls r frame t := polls_of_next h
    cases hpolls with
    | header hheader =>
      rw [hstate] at hheader
      cases hheader
    | commit hcommit =>
      rw [hstate] at hcommit
      cases hcommit
      rw [requestSource.items_done (next_of_done rfl)] at hpre ⊢
      cases datas with
      | nil => exact ⟨⟨[], rfl, List.forall_mem_nil _, rfl⟩, rfl⟩
      | cons data datas =>
        obtain ⟨hframe, -⟩ := List.cons_prefix_cons.mp hpre
        cases hframe
    | @piece source' left pending' bytes hpiece hbytes =>
      rw [hstate] at hpiece
      cases hpiece
      cases datas with
      | nil =>
        obtain ⟨hframe, -⟩ := List.cons_prefix_cons.mp hpre
        cases hframe
      | cons data datas =>
        obtain ⟨hframe, hrest⟩ := List.cons_prefix_cons.mp hpre
        cases hframe
        obtain ⟨⟨chunks, hleft, hne, hflat⟩, hitems⟩ := ih rfl hrest
        have hdata : (bytes.take fileDataChunkMaxBytes :: datas).flatten =
            bytes ++ chunks.flatten := by
          rw [List.flatten_cons, hflat, ← List.append_assoc, IsWhole.flatten_getD rfl]
        refine ⟨?_, by rw [hitems]; rfl⟩
        rcases hbytes with ⟨rfl, rfl⟩ | ⟨rfl, rfl, hbytes⟩
        · exact ⟨chunks, hleft, hne, hdata⟩
        · refine ⟨bytes :: chunks, by rw [hleft]; rfl, ?_, hdata⟩
          exact List.forall_mem_cons.mpr ⟨hbytes, hne⟩

/-! ### The client's frames -/

/-- The frames of a write. -/
abbrev framesOf (source : List (Except ClientError Bytes)) (target : Target) : List WriteFrame :=
  requestStream source target.header

theorem framesOf_eq (source : List (Except ClientError Bytes)) (target : Target) :
    framesOf source target =
      ⟨some (.header target.header)⟩ :: requestSource.items ⟨.data source none, none, 0⟩ :=
  requestSource.items_item rfl

/-- A write's frames up to a commit are all of them, and hold all of the source. -/
theorem whole_of_prefix {header : WriteFrame}
    (h : header :: (datas.map dataFrame ++ [commitFrame]) <+: framesOf source target) :
    IsWhole source datas.flatten ∧
      framesOf source target = header :: (datas.map dataFrame ++ [commitFrame]) := by
  rw [framesOf_eq] at h ⊢
  obtain ⟨rfl, htail⟩ := List.cons_prefix_cons.mp h
  obtain ⟨⟨chunks, hsource, hne, hflat⟩, hitems⟩ :=
    whole_of_commit ⟨.data source none, none, 0⟩ rfl htail
  exact ⟨⟨chunks, hsource, hne, hflat⟩, by rw [hitems]⟩

/-- How many bytes some frames carry. -/
def carried (frames : List WriteFrame) : Nat := (frames.map (·.dataBytes.length)).sum

theorem carried_append (frames frames' : List WriteFrame) :
    carried (frames ++ frames') = carried frames + carried frames' := by
  simp [carried]

theorem carried_map_dataFrame (datas : List Bytes) :
    carried (datas.map dataFrame) = datas.flatten.length := by
  rw [carried, List.map_map, List.length_flatten]
  rfl

/-- What was polled, and what is still to come. -/
structure Polled (source : List (Except ClientError Bytes)) (target : Target) (request : Request)
    (asks : Bool) (sent : List WriteFrame) : Prop where
  begun : sent <+: framesOf source target
  rest : asks = true → framesOf source target = sent ++ requestSource.items request
  bytesSent : request.bytesSent = carried sent
  fine : asks = true → request.sourceError = none
  committed : commitFrame ∈ sent → request.state = .done ∧ request.sourceError = none

theorem Polled.start (source : List (Except ClientError Bytes)) (target : Target) :
    Polled source target ⟨.header source target.header, none, 0⟩ true [] where
  begun := List.nil_prefix
  rest _ := rfl
  bytesSent := rfl
  fine _ := rfl
  committed h := absurd h List.not_mem_nil

theorem Polled.item {sent : List WriteFrame} (h : Polled source target r true sent)
    (hnext : r.next = .item frame r') : Polled source target r' true (sent ++ [frame]) := by
  have hpolls : Polls r frame r' := polls_of_next hnext
  have hrest : framesOf source target = (sent ++ [frame]) ++ requestSource.items r' := by
    rw [h.rest rfl, requestSource.items_item hnext, List.append_assoc, List.singleton_append]
  refine ⟨⟨_, hrest.symm⟩, fun _ => hrest, ?_, fun _ => ?_, fun hcommit => ?_⟩
  · rw [hpolls.bytesSent, h.bytesSent, carried_append]
    rfl
  · rw [hpolls.sourceError, h.fine rfl]
  · refine ⟨?_, by rw [hpolls.sourceError, h.fine rfl]⟩
    rcases List.mem_append.mp hcommit with hbefore | hlast
    · rw [next_of_done (h.committed hbefore).1] at hnext
      cases hnext
    · obtain rfl := List.mem_singleton.mp hlast
      exact hpolls.done_of_commit

theorem Polled.done {sent : List WriteFrame} (h : Polled source target r true sent)
    (hnext : r.next = .done r') : Polled source target r' false sent where
  begun := h.begun
  rest hasks := by cases hasks
  bytesSent := by rw [bytesSent_of_next hnext, h.bytesSent]
  fine hasks := by cases hasks
  committed hcommit := by
    rw [next_of_done (h.committed hcommit).1] at hnext
    obtain rfl := Pull.done.inj hnext
    exact h.committed hcommit

end Copy

end FilePeeker
