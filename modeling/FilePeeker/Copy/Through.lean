import FilePeeker.Copy.Frames

/-!
# A write that goes through

Of an exchange in which nothing is lost, refused or dropped: all of a source without an error
and without an empty chunk gets published, and the client reports it.
-/

namespace FilePeeker

open FilePeeker.Path

namespace Copy

variable {r r' : Request} {bytes written : Bytes}

/-! ### What the client makes of the response -/

theorem isAbsolute_escape (h : isAbsolute bytes = true) :
    isAbsolute (PathString.ofBytes bytes).escaped.bytes = true := by
  cases bytes with
  | nil => cases h
  | cons byte rest =>
    obtain rfl : byte = slash := by simpa [isAbsolute] using h
    have hescape : (escape (slash :: rest)).bytes = slash :: (escape rest).bytes := by
      rw [← List.nil_append (slash :: rest), escape_slash, escape_nil, List.nil_append]
    simp [isAbsolute, PathString.ofBytes, hescape]

/-- A response that tells what was sent is believed. -/
theorem conclude_of_fine (destination : Destination) (hfine : r.sourceError = none) :
    Client.conclude r (.ok ⟨(PathString.ofBytes destination.1).escaped, r.bytesSent⟩) =
      .ok ⟨.ofBytes destination.1, r.bytesSent⟩ := by
  simp only [Client.conclude, hfine, isAbsolute_escape destination.2, if_true,
    Wire.wirePath_ofBytes]
  rfl

/-! ### A write that goes through -/

namespace Exchange

variable {display : Status → String} {chunks : List Bytes}

theorem takeHeader_header (display : Status → String) (directory name : Bytes)
    (conflict : WriteConflict) :
    Server.takeHeader display (.ok ⟨some (.header
        (Target.header ⟨.ofBytes directory, .ofBytes name, conflict⟩))⟩) =
      .ok ⟨.ofBytes directory, .ofBytes name, conflict⟩ := by
  have hpath (bytes : Bytes) :
      Server.wirePath (PathString.ofBytes bytes).escaped = .ok (.ofBytes bytes) := by
    have hok : PathString.fromEscaped (escape bytes) = .ok ⟨escape bytes⟩ :=
      fromEscaped_iff.mpr ⟨⟨bytes, unescape_escape bytes⟩, rfl⟩
    simp only [Server.wirePath, PathString.ofBytes, hok, mapError_ok]
  have hconflict : WriteConflict.tryFrom conflict.toWire = some conflict := by
    cases conflict <;> rfl
  simp only [Server.takeHeader, Target.header, hconflict, hpath]
  rfl

/-- A server that waits for the next of its data, with nothing on its way. -/
def waiting (request : Request) (sent : List WriteFrame) (destination : Destination)
    (written : Bytes) : Exchange where
  request
  asks := true
  sent
  inbox := []
  closed := false
  pc := .writing destination written.length written
  published := none
  reply := none
  answer := none

/-- One piece of the data is polled, and written. -/
theorem waiting_step {sent : List WriteFrame} {destination : Destination} {piece : Bytes}
    (hnext : r.next = .item (dataFrame piece) r') (hne : piece ≠ [])
    (hle : piece.length ≤ fileDataChunkMaxBytes) (hfits : written.length + piece.length < 2 ^ 64) :
    Steps (step display) (fun _ a => a.breaks = false) (waiting r sent destination written)
      (waiting r' (sent ++ [dataFrame piece]) destination (written ++ piece)) := by
  refine steps_of_guarded (steps_of_exec [.pull, .readData] ?_)
  have hvalid : validatedNext (some [.ok (dataFrame piece)]) = .item (.ok piece) (some []) :=
    (if_neg hne).trans (if_pos hle)
  have hpull : step display (waiting r sent destination written) .pull =
      some { waiting r' (sent ++ [dataFrame piece]) destination written with
        inbox := [.ok (dataFrame piece)] } := by
    simp [step, waiting, pulled, hnext]
  have hread : step display { waiting r' (sent ++ [dataFrame piece]) destination written with
      inbox := [.ok (dataFrame piece)] } .readData =
      some (waiting r' (sent ++ [dataFrame piece]) destination (written ++ piece)) := by
    simp only [step, waiting, takeData, hvalid, if_neg hne, if_pos hfits]
    simp [decided, dataFrame]
  simp only [exec, guarded, Action.breaks, if_true, hpull, hread, Option.bind_some]

/-- All the rest of the data is written. -/
theorem waiting_steps (r : Request) : ∀ {pending : Option Bytes} {chunks : List Bytes}
    {sent : List WriteFrame} {destination : Destination} {written : Bytes},
    r.state = .data (chunks.map .ok) pending → (∀ chunk ∈ chunks, chunk ≠ []) →
    (∀ bytes, pending = some bytes → bytes ≠ []) →
    r.bytesSent = written.length →
    (written ++ (pending.getD [] ++ chunks.flatten)).length < 2 ^ 64 →
    ∃ r' sent', Steps (step display) (fun _ a => a.breaks = false)
        (waiting r sent destination written)
        (waiting r' sent' destination (written ++ (pending.getD [] ++ chunks.flatten))) ∧
      r'.next = .item commitFrame { r' with state := .done } ∧
      r'.sourceError = r.sourceError ∧
      r'.bytesSent = (written ++ (pending.getD [] ++ chunks.flatten)).length := by
  induction r using requestSource.drain_induction with
  | done r t h =>
    intro pending chunks sent destination written hstate hchunks hpending hsent hfits
    have h : r.next = .done t := h
    rcases next_cases hstate hchunks hpending (by simpa [hsent] using hfits) with
      ⟨-, hnext⟩ | ⟨_, _, -, -, -, hnext⟩
    all_goals
      rw [h] at hnext
      cases hnext
  | item r b t h ih =>
    intro pending chunks sent destination written hstate hchunks hpending hsent hfits
    have h : r.next = .item b t := h
    rcases next_cases hstate hchunks hpending (by simpa [hsent] using hfits) with
      ⟨hnil, hnext⟩ | ⟨bytes, left, hne, hleft, hall, hnext⟩
    · rw [hnil, List.append_nil]
      exact ⟨r, sent, .refl _, hnext, rfl, hsent⟩
    · obtain ⟨rfl, rfl⟩ := Pull.item.inj (h.symm.trans hnext)
      have hcut : bytes.take fileDataChunkMaxBytes ++ (pendingAfter bytes).getD [] = bytes :=
        take_pendingAfter bytes
      have hwritten : written ++ (pending.getD [] ++ chunks.flatten) =
          (written ++ bytes.take fileDataChunkMaxBytes) ++
            ((pendingAfter bytes).getD [] ++ left.flatten) := by
        rw [hall, List.append_assoc, ← List.append_assoc (bytes.take _), hcut]
      rw [hwritten] at hfits ⊢
      obtain ⟨r', sent', hsteps, hcommit, herror, hcount⟩ := ih rfl hleft
        (fun rest hrest => pendingAfter_ne_nil hrest) (by simp [hsent]) hfits
      refine ⟨r', sent', .trans (waiting_step hnext (take_ne_nil hne) (take_length_le bytes) ?_)
        hsteps, hcommit, herror, hcount⟩
      simp only [List.length_append] at hfits ⊢
      omega

/-- Once all of the data is written, a commit ends it. -/
theorem finishes {sent : List WriteFrame} {destination : Destination}
    (hnext : r.next = .item commitFrame { r with state := .done }) (hfine : r.sourceError = none)
    (hsent : r.bytesSent = written.length) :
    ∃ e, Steps (step display) (fun _ a => a.breaks = false)
        (waiting r sent destination written) e ∧ e.published = some written ∧
      e.answer = some (.ok ⟨.ofBytes destination.1, written.length⟩) := by
  have hdone : Request.next { r with state := .done } = .done { r with state := .done } :=
    next_of_done rfl
  have hconclude : Client.conclude { r with state := .done }
      (.ok ⟨(PathString.ofBytes destination.1).escaped, written.length⟩) =
        .ok ⟨.ofBytes destination.1, written.length⟩ := by
    rw [← hsent]
    exact conclude_of_fine (r := { r with state := .done }) destination hfine
  refine ⟨{
    request := { r with state := .done }
    asks := false
    sent := sent ++ [commitFrame]
    inbox := []
    closed := true
    pc := .ended
    published := some written
    reply := some (.ok ⟨(PathString.ofBytes destination.1).escaped, written.length⟩)
    answer := some (.ok ⟨.ofBytes destination.1, written.length⟩) }, ?_, rfl, rfl⟩
  refine steps_of_guarded (steps_of_exec
    [.pull, .pull, .readData, .flush, .publish, .respond, .receive] ?_)
  simp [exec, guarded, step, Action.breaks, waiting, pulled, hnext, hdone, decided, takeData,
    validatedNext, commitFrame, respondWith, hconclude]

/-- **A write can go through.**  All of a source without an empty chunk, and with a count
that fits, can get published, and the client then reports it. -/
theorem goes_through (display : Status → String) (directory name : Bytes)
    (conflict : WriteConflict) (destination : Destination)
    (hchunks : ∀ chunk ∈ chunks, chunk ≠ []) (hfits : chunks.flatten.length < 2 ^ 64) :
    ∃ e, Steps (step display) (fun _ a => a.breaks = false)
        (start (chunks.map .ok) ⟨.ofBytes directory, .ofBytes name, conflict⟩) e ∧
      e.published = some chunks.flatten ∧
      e.answer = some (.ok ⟨.ofBytes destination.1, chunks.flatten.length⟩) := by
  let header : WriteFrame :=
    ⟨some (.header (Target.header ⟨.ofBytes directory, .ofBytes name, conflict⟩))⟩
  have hnone : ∀ bytes : Bytes, none = some bytes → bytes ≠ [] := fun _ h => by cases h
  have hwrites : ∃ r sent, Steps (step display) (fun _ a => a.breaks = false)
      (waiting ⟨.data (chunks.map .ok) none, none, 0⟩ [header] destination [])
      (waiting r sent destination chunks.flatten) ∧
      r.next = .item commitFrame { r with state := .done } ∧ r.sourceError = none ∧
      r.bytesSent = chunks.flatten.length :=
    waiting_steps ⟨.data (chunks.map .ok) none, none, 0⟩ rfl hchunks hnone rfl hfits
  obtain ⟨r, sent, hsteps, hcommit, hfine, hcount⟩ := hwrites
  obtain ⟨e, hend, hpublished, hanswer⟩ := finishes hcommit hfine hcount
  refine ⟨e, .trans (.trans (steps_of_guarded
    (steps_of_exec [.pull, .readHeader, .prepare destination] ?_)) hsteps) hend,
    hpublished, hanswer⟩
  simp [exec, guarded, step, Action.breaks, waiting, start, pulled, Request.next,
    takeHeader_header, header]

end Exchange

end Copy

end FilePeeker
