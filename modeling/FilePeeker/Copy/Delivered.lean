import FilePeeker.Copy.Through

/-!
# What a write delivers

What is on its way to the server is what comes next of the frames that were polled, cut off
where the connection failed (`Wired`).  So a server that took data and then a commit, and
nothing else, has all of the source in its partial file, whatever was lost; that carries the
invariant of an exchange (`Exchange.Sound`), and what is published, reported and refused
follows from it.
-/

namespace FilePeeker

open FilePeeker.Path

namespace Copy

variable {source : List (Except ClientError Bytes)} {target : Target} {r : Request}
  {frame : WriteFrame} {bytes written : Bytes}

/-! ### What is on its way -/

/-- What is on its way is what comes next of what was polled, cut off where the connection
failed. -/
def Wired (inbox : List (Except Status WriteFrame)) (sent : List WriteFrame) (closed : Bool)
    (taken : List WriteFrame) : Prop :=
  ∃ (rest : List WriteFrame) (errors : List Status),
    inbox = rest.map .ok ++ errors.map .error ∧ taken ++ rest <+: sent ∧
      (closed = false → errors = [] ∧ taken ++ rest = sent)

namespace Wired

variable {inbox : List (Except Status WriteFrame)} {sent taken : List WriteFrame}
  {closed : Bool}

theorem nil : Wired [] [] false [] := ⟨[], [], rfl, List.nil_prefix, fun _ => ⟨rfl, rfl⟩⟩

theorem item (h : Wired inbox sent closed taken) (frame : WriteFrame) :
    Wired (if closed then inbox else inbox ++ [.ok frame]) (sent ++ [frame]) closed taken := by
  obtain ⟨rest, errors, rfl, hpre, hall⟩ := h
  cases closed with
  | true =>
    exact ⟨rest, errors, rfl, hpre.trans (List.prefix_append _ _), fun h => by cases h⟩
  | false =>
    obtain ⟨rfl, rfl⟩ := hall rfl
    refine ⟨rest ++ [frame], [], by simp, by simp, fun _ => ⟨rfl, by simp⟩⟩

theorem ends (h : Wired inbox sent closed taken) : Wired inbox sent true taken := by
  obtain ⟨rest, errors, hinbox, hpre, -⟩ := h
  exact ⟨rest, errors, hinbox, hpre, fun h => by cases h⟩

theorem lose (h : Wired inbox sent closed taken) (keep : Nat) (status : Status) :
    Wired (inbox.take keep ++ [.error status]) sent true taken := by
  obtain ⟨rest, errors, rfl, hpre, -⟩ := h
  refine ⟨rest.take keep, errors.take (keep - rest.length) ++ [status], ?_, ?_,
    fun h => by cases h⟩
  · simp [List.take_append, List.map_take]
  · exact List.IsPrefix.trans
      ((List.prefix_append_right_inj taken).mpr (List.take_prefix keep rest)) hpre

/-- A frame is taken. -/
theorem take (h : Wired (.ok frame :: inbox) sent closed taken) :
    Wired inbox sent closed (taken ++ [frame]) := by
  obtain ⟨rest, errors, hinbox, hpre, hall⟩ := h
  cases rest with
  | nil =>
    cases errors with
    | nil => cases hinbox
    | cons => cases hinbox
  | cons frame' rest =>
    cases hinbox
    refine ⟨rest, errors, rfl, by simpa using hpre, fun hover => ?_⟩
    obtain ⟨herrors, hsent⟩ := hall hover
    exact ⟨herrors, by simpa using hsent⟩

theorem taken_prefix (h : Wired inbox sent closed taken) : taken <+: sent := by
  obtain ⟨rest, errors, -, hpre, -⟩ := h
  exact (List.prefix_append _ _).trans hpre

end Wired

/-! ### What the server takes -/

theorem header_of_takeHeader {display : Status → String} {item : Except Status WriteFrame}
    (h : Server.takeHeader display item = .ok target) : ∃ frame, item = .ok frame := by
  cases item with
  | error status => cases h
  | ok frame => exact ⟨frame, rfl⟩

theorem data_of_validatedNext {inbox : List (Except Status WriteFrame)} {frames : FramesState}
    (h : validatedNext (some inbox) = .item (.ok bytes) frames) :
    ∃ rest, inbox = .ok (dataFrame bytes) :: rest ∧ frames = some rest := by
  simp only [validatedNext] at h
  split at h
  · cases h
  · cases h
  · cases h
  · next heq =>
    repeat' split at h
    all_goals cases h
    obtain rfl := Option.some.inj heq
    next frame _ _ hpayload _ _ =>
    exact ⟨_, by rw [dataFrame, ← hpayload], rfl⟩

theorem commit_of_validatedNext {inbox : List (Except Status WriteFrame)} {frames : FramesState}
    (h : validatedNext (some inbox) = .done frames) : inbox = [.ok commitFrame] := by
  simp only [validatedNext] at h
  split at h
  · next heq => cases heq
  · cases h
  · cases h
  · next heq =>
    repeat' split at h
    all_goals cases h
    obtain rfl := Option.some.inj heq
    next frame _ hpayload _ =>
    rw [commitFrame, ← hpayload]

/-! ### What the client makes of a response -/

theorem conclude_ok {response : Except Status WriteResponse} {result : WriteResult}
    (h : Client.conclude r response = .ok result) :
    ∃ answer, response = .ok answer ∧ result.bytesWritten = answer.bytesWritten := by
  simp only [Client.conclude] at h
  split at h
  · cases h
  · split at h
    · cases h
    · next answer =>
      refine ⟨answer, rfl, ?_⟩
      split_ifs at h
      rcases hpath : Wire.Client.wirePath answer.path "written path" with error | path
      · rw [hpath] at h
        cases h
      · rw [hpath] at h
        obtain rfl := Except.ok.inj h
        rfl

/-! ### The invariant -/

/-- All of the source was sent, and the client knows how much that is. -/
structure Delivered (source : List (Except ClientError Bytes)) (request : Request)
    (written : Bytes) : Prop where
  whole : IsWhole source written
  done : request.state = .done
  fine : request.sourceError = none
  bytesSent : request.bytesSent = written.length

/-- Nothing is published yet. -/
def ServerPc.early : ServerPc → Bool
  | .published .. | .ended => false
  | _ => true

namespace Exchange

variable {e e' : Exchange} {display : Status → String} {a : Action}

/-- What is in the partial file is the data that came after a header. -/
def Filled (e : Exchange) (written : Bytes) : Prop :=
  ∃ (header : WriteFrame) (datas : List Bytes), written = datas.flatten ∧
    Wired e.inbox e.sent e.closed (header :: datas.map dataFrame)

/-- What the server has got to. -/
def Phase (source : List (Except ClientError Bytes)) (e : Exchange) : ServerPc → Prop
  | .header => Wired e.inbox e.sent e.closed []
  | .preparing _ => e.Filled []
  | .writing _ bytesWritten written => bytesWritten = written.length ∧ e.Filled written
  | .flushing _ bytesWritten written | .publishing _ bytesWritten written =>
    bytesWritten = written.length ∧ Delivered source e.request written
  | .published _ bytesWritten =>
    ∃ written, e.published = some written ∧ bytesWritten = written.length
  | .late written => Delivered source e.request written
  | .ended => True

/-- A response tells what was published. -/
def Tells (published : Option Bytes) : Except Status WriteResponse → Prop
  | .ok response => ∃ (destination : Destination) (written : Bytes), published = some written ∧
      response = ⟨(PathString.ofBytes destination.1).escaped, written.length⟩
  | .error _ => published = none

/-- The invariant of an exchange. -/
structure Sound (source : List (Except ClientError Bytes)) (target : Target) (e : Exchange) :
    Prop where
  polled : Polled source target e.request e.asks e.sent
  phase : Phase source e e.pc
  unpublished : e.pc.early = true → e.published = none
  published : ∀ written, e.published = some written → Delivered source e.request written
  reply : ∀ response, e.reply = some response → e.pc = .ended ∧ Tells e.published response
  answer : ∀ result, e.answer = some (.ok result) →
    ∃ written, e.published = some written ∧ result.bytesWritten = written.length

theorem sound_start (source : List (Except ClientError Bytes)) (target : Target) :
    Sound source target (start source target) where
  polled := .start source target
  phase := Wired.nil
  unpublished _ := rfl
  published _ h := by cases h
  reply _ h := by cases h
  answer _ h := by cases h

theorem Phase.mono {pc : ServerPc} (h : Phase source e pc)
    (hwired : ∀ taken, Wired e.inbox e.sent e.closed taken → Wired e'.inbox e'.sent e'.closed taken)
    (hdelivered : ∀ written, Delivered source e.request written →
      Delivered source e'.request written)
    (hpublished : e'.published = e.published) : Phase source e' pc := by
  have hfilled : ∀ {written : Bytes}, e.Filled written → e'.Filled written := by
    rintro _ ⟨header, datas, rfl, hwire⟩
    exact ⟨header, datas, rfl, hwired _ hwire⟩
  cases pc with
  | header => exact hwired [] h
  | preparing => exact hfilled h
  | writing => exact ⟨h.1, hfilled h.2⟩
  | flushing => exact ⟨h.1, hdelivered _ h.2⟩
  | publishing => exact ⟨h.1, hdelivered _ h.2⟩
  | published =>
    obtain ⟨written, hwritten, hlength⟩ := h
    exact ⟨written, hpublished.trans hwritten, hlength⟩
  | late => exact hdelivered _ h
  | ended => trivial

namespace Sound

/-- Before anything is published, there is no response. -/
theorem reply_none (h : Sound source target e) (hearly : e.pc.early = true) :
    e.reply = none := by
  cases hreply : e.reply with
  | none => rfl
  | some response =>
    rw [(h.reply response hreply).1] at hearly
    cases hearly

/-- The frames, or what is on their way, change. -/
theorem onWay (h : Sound source target e) {request : Request} {asks closed : Bool}
    {sent : List WriteFrame} {inbox : List (Except Status WriteFrame)}
    (hpolled : Polled source target request asks sent)
    (hwired : ∀ taken, Wired e.inbox e.sent e.closed taken → Wired inbox sent closed taken)
    (hdelivered : ∀ written, Delivered source e.request written →
      Delivered source request written) :
    Sound source target { e with request, asks, sent, inbox, closed } where
  polled := hpolled
  phase := h.phase.mono hwired hdelivered rfl
  unpublished := h.unpublished
  published written hwritten := hdelivered written (h.published written hwritten)
  reply := h.reply
  answer := h.answer

theorem pulled (h : Sound source target e) (hasks : e.asks = true) :
    Sound source target e.pulled := by
  have hpolled : Polled source target e.request true e.sent := hasks ▸ h.polled
  rw [Exchange.pulled]
  split
  · next frame request hnext =>
    rw [hasks]
    refine h.onWay (hpolled.item hnext) (fun taken hwire => hwire.item frame) ?_
    intro written hdelivered
    rw [next_of_done hdelivered.done] at hnext
    cases hnext
  · next request hnext =>
    refine h.onWay (hpolled.done hnext) (fun taken hwire => hwire.ends) ?_
    intro written hdelivered
    rw [next_of_done hdelivered.done] at hnext
    obtain rfl := Pull.done.inj hnext
    exact hdelivered

theorem lose (h : Sound source target e) (keep : Nat) (status : Status) :
    Sound source target { e with inbox := e.inbox.take keep ++ [.error status], closed := true } :=
  h.onWay h.polled (fun _ hwire => hwire.lose keep status) fun _ hdelivered => hdelivered

/-- The client's call ends. -/
theorem answered (h : Sound source target e) {response : Except Status WriteResponse}
    (htells : ∀ answer, response = .ok answer → e.reply = some response) :
    Sound source target { e with answer := some (Client.conclude e.request response) } where
  polled := h.polled
  phase := h.phase.mono (fun _ hwire => hwire) (fun _ hdelivered => hdelivered) rfl
  unpublished := h.unpublished
  published := h.published
  reply := h.reply
  answer result hresult := by
    obtain ⟨answer, rfl, hlength⟩ := conclude_ok (Option.some.inj hresult)
    obtain ⟨destination, written, hwritten, rfl⟩ := (h.reply _ (htells answer rfl)).2
    exact ⟨written, hwritten, hlength⟩

/-- The server goes on, and has published nothing. -/
theorem goesOn (h : Sound source target e) (hearly : e.pc.early = true) {pc : ServerPc}
    {inbox : List (Except Status WriteFrame)}
    (hphase : Phase source { e with inbox, pc } pc) :
    Sound source target { e with inbox, pc } where
  polled := h.polled
  phase := hphase
  unpublished _ := h.unpublished hearly
  published := h.published
  reply response hreply := by
    have hnone : some response = none := hreply.symm.trans (h.reply_none hearly)
    cases hnone
  answer := h.answer

/-- The server refuses. -/
theorem refused (h : Sound source target e) (hearly : e.pc.early = true) (status : Status) :
    Sound source target (e.respondWith (.error status)) where
  polled := h.polled
  phase := trivial
  unpublished hended := by cases hended
  published := h.published
  reply response hreply := by
    obtain rfl := Option.some.inj hreply
    exact ⟨rfl, h.unpublished hearly⟩
  answer := h.answer

/-- The server's handler is gone. -/
theorem dropped (h : Sound source target e) : Sound source target { e with pc := .ended } where
  polled := h.polled
  phase := trivial
  unpublished hended := by cases hended
  published := h.published
  reply response hreply := ⟨rfl, (h.reply response hreply).2⟩
  answer := h.answer

/-- The partial file gets its name. -/
theorem publishes (h : Sound source target e) (hearly : e.pc.early = true) {pc : ServerPc}
    (hlate : pc.early = false) (hdelivered : Delivered source e.request written)
    (hphase : Phase source { e with pc, published := some written } pc) :
    Sound source target { e with pc, published := some written } where
  polled := h.polled
  phase := hphase
  unpublished hpc := by
    rw [hlate] at hpc
    cases hpc
  published written' hwritten := by
    obtain rfl := Option.some.inj hwritten
    exact hdelivered
  reply response hreply := by
    have hnone : some response = none := hreply.symm.trans (h.reply_none hearly)
    cases hnone
  answer result hresult := by
    obtain ⟨written', hwritten, -⟩ := h.answer result hresult
    rw [h.unpublished hearly] at hwritten
    cases hwritten

theorem responds (h : Sound source target e) {destination : Destination} {bytesWritten : Nat}
    (hpc : e.pc = .published destination bytesWritten) : Sound source target (e.respondWith
      (.ok ⟨(PathString.ofBytes destination.1).escaped, bytesWritten⟩)) where
  polled := h.polled
  phase := trivial
  unpublished hended := by cases hended
  published := h.published
  reply response hreply := by
    obtain rfl := Option.some.inj hreply
    have hphase := h.phase
    rw [hpc] at hphase
    obtain ⟨written, hwritten, rfl⟩ := hphase
    exact ⟨rfl, destination, written, hwritten, rfl⟩
  answer := h.answer

/-- A commit right after the data: all of the source is in the partial file. -/
theorem delivered (h : Sound source target e) (hfilled : e.Filled written)
    (hinbox : e.inbox = [.ok commitFrame]) : Delivered source e.request written := by
  obtain ⟨header, datas, rfl, hwire⟩ := hfilled
  rw [hinbox] at hwire
  have hpre : header :: (datas.map dataFrame ++ [commitFrame]) <+: e.sent := hwire.take.taken_prefix
  obtain ⟨hwhole, hall⟩ := whole_of_prefix (hpre.trans h.polled.begun)
  have hsent : header :: (datas.map dataFrame ++ [commitFrame]) = e.sent :=
    hpre.eq_of_length_le (by rw [← hall]; exact h.polled.begun.length_le)
  have hcommit : commitFrame ∈ e.sent := by simp [← hsent]
  obtain ⟨hdone, hfine⟩ := h.polled.committed hcommit
  refine ⟨hwhole, hdone, hfine, ?_⟩
  have hheader : carried [header] = 0 := by
    rw [framesOf_eq] at hall
    obtain ⟨rfl, -⟩ := List.cons.inj hall
    rfl
  have hcommitted : carried [commitFrame] = 0 := rfl
  rw [h.polled.bytesSent, ← hsent, ← List.singleton_append, carried_append, carried_append,
    carried_map_dataFrame, hheader, hcommitted, Nat.zero_add, Nat.add_zero]

end Sound

end Exchange

/-! ### A step, and a run -/

namespace Exchange

variable {e e' : Exchange} {display : Status → String} {a : Action}

theorem Filled.take {data : Bytes} {inbox : List (Except Status WriteFrame)}
    {pc : ServerPc} (h : e.Filled written) (hinbox : e.inbox = .ok (dataFrame data) :: inbox) :
    Filled { e with inbox, pc } (written ++ data) := by
  obtain ⟨header, datas, rfl, hwire⟩ := h
  rw [hinbox] at hwire
  refine ⟨header, datas ++ [data], by simp, ?_⟩
  rw [List.map_append, List.map_singleton, ← List.cons_append]
  exact hwire.take

/-- What a step comes to. -/
inductive Turns (e : Exchange) : Action → Exchange → Prop
  | pull (hasks : e.asks = true) : Turns e .pull e.pulled
  | lose (keep : Nat) (status : Status) : Turns e (.lose keep status)
      { e with inbox := e.inbox.take keep ++ [.error status], closed := true }
  | breakOff (status : Status) : Turns e (.breakOff status)
      { e with answer := some (Client.conclude e.request (.error status)) }
  | receive {response : Except Status WriteResponse} (hreply : e.reply = some response) :
      Turns e .receive { e with answer := some (Client.conclude e.request response) }
  | takeHeader {frame : WriteFrame} {inbox : List (Except Status WriteFrame)} {target : Target}
      (hpc : e.pc = .header) (hinbox : e.inbox = .ok frame :: inbox) :
      Turns e .readHeader { e with inbox, pc := .preparing target }
  | prepare {target : Target} {destination : Destination} (hpc : e.pc = .preparing target) :
      Turns e (.prepare destination) { e with pc := .writing destination 0 [] }
  | write {destination : Destination} {bytesWritten : Nat} {written data : Bytes}
      {inbox : List (Except Status WriteFrame)}
      (hpc : e.pc = .writing destination bytesWritten written)
      (hinbox : e.inbox = .ok (dataFrame data) :: inbox) : Turns e .readData { e with
        inbox, pc := .writing destination (bytesWritten + data.length) (written ++ data) }
  | commit {destination : Destination} {bytesWritten : Nat} {written : Bytes}
      (hpc : e.pc = .writing destination bytesWritten written)
      (hinbox : e.inbox = [.ok commitFrame]) :
      Turns e .readData { e with inbox := [], pc := .flushing destination bytesWritten written }
  | flush {destination : Destination} {bytesWritten : Nat} {written : Bytes}
      (hpc : e.pc = .flushing destination bytesWritten written) :
      Turns e .flush { e with pc := .publishing destination bytesWritten written }
  | publish {destination : Destination} {bytesWritten : Nat} {written : Bytes}
      (hpc : e.pc = .publishing destination bytesWritten written) : Turns e .publish
        { e with pc := .published destination bytesWritten, published := some written }
  | publishLate {written : Bytes} (hpc : e.pc = .late written) :
      Turns e .publish { e with pc := .ended, published := some written }
  | respond {destination : Destination} {bytesWritten : Nat}
      (hpc : e.pc = .published destination bytesWritten) : Turns e .respond
        (e.respondWith (.ok ⟨(PathString.ofBytes destination.1).escaped, bytesWritten⟩))
  | refuse {a : Action} {status : Status} (hearly : e.pc.early = true) :
      Turns e a (e.respondWith (.error status))
  | dropLate {destination : Destination} {bytesWritten : Nat} {written : Bytes}
      (hpc : e.pc = .publishing destination bytesWritten written) :
      Turns e .drop { e with pc := .late written }
  | drop : Turns e .drop { e with pc := .ended }

/-- A turn of the server's loop. -/
theorem turns_takeData {destination : Destination} {bytesWritten : Nat}
    (hpc : e.pc = .writing destination bytesWritten written) :
    Turns e .readData (e.takeData destination bytesWritten written) := by
  have hearly : e.pc.early = true := by rw [hpc]; rfl
  rw [takeData]
  split
  · next hnext => exact .commit hpc (commit_of_validatedNext hnext)
  · exact .refuse hearly
  · next data frames hnext =>
    obtain ⟨rest, hinbox, rfl⟩ := data_of_validatedNext hnext
    split_ifs
    · exact .refuse hearly
    · exact .write hpc hinbox
    · exact .refuse hearly

theorem turns_of_step (hstep : step display e a = some e') : Turns e a e' := by
  cases a <;> simp only [step] at hstep
  case pull =>
    split_ifs at hstep with hasks
    obtain rfl := Option.some.inj hstep
    exact .pull hasks.1
  case lose keep status =>
    obtain rfl := Option.some.inj hstep
    exact .lose keep status
  case breakOff status =>
    split at hstep <;> cases hstep
    exact .breakOff status
  case receive =>
    split at hstep <;> cases hstep
    next hreply => exact .receive hreply
  case readHeader =>
    split at hstep
    · next hpc hinbox =>
      split at hstep <;> cases hstep
      · next hheader =>
        obtain ⟨frame, rfl⟩ := header_of_takeHeader hheader
        exact .takeHeader hpc hinbox
      · exact .refuse (by rw [hpc]; rfl)
    · next hpc _ =>
      split_ifs at hstep
      cases hstep
      exact .refuse (by rw [hpc]; rfl)
    · cases hstep
  case prepare =>
    split at hstep <;> cases hstep
    next hpc => exact .prepare hpc
  case readData =>
    split at hstep
    · next hpc =>
      split_ifs at hstep
      cases hstep
      exact turns_takeData hpc
    · cases hstep
  case flush =>
    split at hstep <;> cases hstep
    next hpc => exact .flush hpc
  case publish =>
    split at hstep <;> cases hstep
    · next hpc => exact .publish hpc
    · next hpc => exact .publishLate hpc
  case respond =>
    split at hstep <;> cases hstep
    next hpc => exact .respond hpc
  case fail =>
    split at hstep <;> cases hstep
    all_goals
      next hpc => exact .refuse (by rw [hpc]; rfl)
  case drop =>
    split at hstep <;> cases hstep
    · next hpc => exact .dropLate hpc
    · exact .drop

/-- Every step keeps the invariant. -/
theorem Sound.of_step (h : Sound source target e) (hstep : step display e a = some e') :
    Sound source target e' := by
  have hphase := h.phase
  cases turns_of_step hstep with
  | pull hasks => exact h.pulled hasks
  | lose keep status => exact h.lose keep status
  | breakOff status => exact h.answered fun _ herror => by cases herror
  | receive hreply => exact h.answered fun _ _ => hreply
  | @takeHeader frame _ _ hpc hinbox =>
    rw [hpc] at hphase
    change Wired e.inbox e.sent e.closed [] at hphase
    rw [hinbox] at hphase
    exact h.goesOn (by rw [hpc]; rfl) ⟨frame, [], rfl, hphase.take⟩
  | prepare hpc =>
    rw [hpc] at hphase
    exact h.goesOn (by rw [hpc]; rfl) ⟨rfl, hphase⟩
  | write hpc hinbox =>
    rw [hpc] at hphase
    obtain ⟨rfl, hfilled⟩ := hphase
    exact h.goesOn (by rw [hpc]; rfl) ⟨List.length_append.symm, hfilled.take hinbox⟩
  | commit hpc hinbox =>
    rw [hpc] at hphase
    obtain ⟨rfl, hfilled⟩ := hphase
    exact h.goesOn (by rw [hpc]; rfl) ⟨rfl, h.delivered hfilled hinbox⟩
  | flush hpc =>
    rw [hpc] at hphase
    exact h.goesOn (by rw [hpc]; rfl) hphase
  | publish hpc =>
    rw [hpc] at hphase
    exact h.publishes (by rw [hpc]; rfl) rfl hphase.2 ⟨_, rfl, hphase.1⟩
  | publishLate hpc =>
    rw [hpc] at hphase
    exact h.publishes (by rw [hpc]; rfl) rfl hphase trivial
  | respond hpc => exact h.responds hpc
  | refuse hearly => exact h.refused hearly _
  | dropLate hpc =>
    rw [hpc] at hphase
    exact h.goesOn (by rw [hpc]; rfl) hphase.2
  | drop => exact h.dropped

theorem sound_of_steps {ok : Exchange → Action → Prop}
    (h : Steps (step display) ok (start source target) e) : Sound source target e :=
  h.invariant (fun _ _ _ hsound _ hstep => hsound.of_step hstep) (sound_start source target)

theorem pulled_frame (e : Exchange) : e.pulled.published = e.published ∧ e.pulled.pc = e.pc ∧
    e.pulled.answer = e.answer := by
  rw [pulled]
  split <;> exact ⟨rfl, rfl, rfl⟩

/-- Only what is not published yet is published. -/
theorem published_of_step (hstep : step display e a = some e') :
    e'.published = e.published ∨ e.pc.early = true := by
  cases turns_of_step hstep with
  | pull => exact .inl (pulled_frame e).1
  | publish hpc => exact .inr (by rw [hpc]; rfl)
  | publishLate hpc => exact .inr (by rw [hpc]; rfl)
  | _ => exact .inl rfl

/-- Of a server that is done nothing more comes. -/
theorem ended_of_step (hstep : step display e a = some e') (hended : e.pc = .ended) :
    e'.pc = .ended := by
  cases turns_of_step hstep with
  | pull => exact (pulled_frame e).2.1.trans hended
  | lose | breakOff | receive => exact hended
  | refuse | drop | respond | publishLate => rfl
  | takeHeader hpc | prepare hpc | write hpc | commit hpc | flush hpc | publish hpc
  | dropLate hpc =>
    rw [hended] at hpc
    cases hpc

/-- A call that is not broken off ends with the response. -/
theorem answer_of_step (hstep : step display e a = some e') (hbreaks : a.breaks = false) :
    e'.answer = e.answer ∨ ∃ response, e.reply = some response ∧
      e'.answer = some (Client.conclude e.request response) := by
  cases turns_of_step hstep with
  | pull => exact .inl (pulled_frame e).2.2
  | breakOff => cases hbreaks
  | receive hreply => exact .inr ⟨_, hreply, rfl⟩
  | _ => exact .inl rfl

/-- What was published stays as it is. -/
theorem Sound.published_stays (h : Sound source target e) (hwritten : e.published = some written)
    (hstep : step display e a = some e') : e'.published = some written := by
  rcases published_of_step hstep with heq | hearly
  · rw [heq, hwritten]
  · rw [h.unpublished hearly] at hwritten
    cases hwritten

/-- Nothing is published, or will be. -/
def Refused (e : Exchange) : Prop := e.pc = .ended ∧ e.published = none

theorem Refused.of_step (h : e.Refused) (hstep : step display e a = some e') : e'.Refused := by
  refine ⟨ended_of_step hstep h.1, ?_⟩
  rcases published_of_step hstep with heq | hearly
  · rw [heq, h.2]
  · rw [h.1] at hearly
    cases hearly

/-- The client reports an error only where nothing is published, or will be. -/
def Honest (e : Exchange) : Prop := ∀ error, e.answer = some (.error error) → e.Refused

/-- A response the client does not believe refuses. -/
theorem Sound.refused_of_conclude (h : Sound source target e)
    {response : Except Status WriteResponse} {error : ClientError}
    (hreply : e.reply = some response)
    (herror : Client.conclude e.request response = .error error) : e.Refused := by
  obtain ⟨hpc, htells⟩ := h.reply response hreply
  cases response with
  | error status => exact ⟨hpc, htells⟩
  | ok response =>
    obtain ⟨destination, written, hwritten, rfl⟩ := htells
    have hdelivered : Delivered source e.request written := h.published written hwritten
    rw [← hdelivered.bytesSent, conclude_of_fine destination hdelivered.fine] at herror
    cases herror

theorem Honest.of_step (h : e.Honest) (hsound : Sound source target e)
    (hbreaks : a.breaks = false) (hstep : step display e a = some e') : e'.Honest := by
  intro error herror
  rcases answer_of_step hstep hbreaks with hsame | ⟨response, hreply, hanswer⟩
  · exact (h error (by rw [← hsame, herror])).of_step hstep
  · rw [hanswer] at herror
    exact (hsound.refused_of_conclude hreply (Option.some.inj herror)).of_step hstep

end Exchange

/-! ### What a write comes to -/

section Results

variable {display : Status → String} {e e' : Exchange}

/-- **What is published is all of the source.**  In every run, with whatever lost and dropped:
what is published is all of a source that did not fail, and stays as it is; and what a
client takes as written was published, as many bytes of it. -/
theorem published_is_whole
    (h : Steps (Exchange.step display) (fun _ _ => True) (.start source target) e) :
    (∀ written, e.published = some written → IsWhole source written ∧
      ∀ e', Steps (Exchange.step display) (fun _ _ => True) e e' → e'.published = some written) ∧
    ∀ result, e.answer = some (.ok result) → ∃ written, e.published = some written ∧
      IsWhole source written ∧ result.bytesWritten = written.length := by
  have hsound : Exchange.Sound source target e := Exchange.sound_of_steps h
  refine ⟨fun written hwritten => ⟨(hsound.published written hwritten).whole, ?_⟩, ?_⟩
  · intro e' hlater
    have hboth : Exchange.Sound source target e' ∧ e'.published = some written :=
      hlater.invariant
        (I := fun e => Exchange.Sound source target e ∧ e.published = some written)
        (fun _ _ _ hI _ hstep => ⟨hI.1.of_step hstep, hI.1.published_stays hI.2 hstep⟩)
        ⟨hsound, hwritten⟩
    exact hboth.2
  · intro result hresult
    obtain ⟨written, hwritten, hlength⟩ := hsound.answer result hresult
    exact ⟨written, hwritten, (hsound.published written hwritten).whole, hlength⟩

/-- A file that is read in three chunks is written. -/
theorem published_is_whole_of_three : ∃ e : Exchange,
    (∃ result, e.answer = some (.ok result) ∧ result.bytesWritten = 6) ∧
      e.published = some [1, 2, 3, 4, 5, 6] ∧
      IsWhole [.ok [1, 2], .ok [3], .ok [4, 5, 6]] [1, 2, 3, 4, 5, 6] := by
  have hchunks : ∀ chunk ∈ ([[1, 2], [3], [4, 5, 6]] : List Bytes), chunk ≠ [] := by simp
  obtain ⟨e, hsteps, hpublished, hanswer⟩ := Exchange.goes_through (fun _ => "") [slash] [0x61]
    .replace ⟨[slash, 0x61], rfl⟩ hchunks (by decide)
  have hwhole := published_is_whole (hsteps.mono fun _ _ _ => trivial)
  exact ⟨e, ⟨_, hanswer, rfl⟩, hpublished, (hwhole.1 _ hpublished).1⟩

/-- **A refusal is final.**  Where the client's call was not broken off, an error it reports
means that nothing was published, and nothing will be, whatever happens from there on. -/
theorem refusal_is_final {error : ClientError}
    (h : Steps (Exchange.step display) (fun _ a => a.breaks = false) (.start source target) e)
    (herror : e.answer = some (.error error))
    (hlater : Steps (Exchange.step display) (fun _ _ => True) e e') : e'.published = none := by
  have hboth : Exchange.Sound source target e ∧ e.Honest := by
    refine h.invariant (I := fun e => Exchange.Sound source target e ∧ e.Honest) ?_
      ⟨Exchange.sound_start source target, fun _ hanswer => by cases hanswer⟩
    intro _ _ _ hI hbreaks hstep
    exact ⟨hI.1.of_step hstep, hI.2.of_step hI.1 hbreaks hstep⟩
  have hrefused : e'.Refused :=
    hlater.invariant (fun _ _ _ hI _ hstep => hI.of_step hstep) (hboth.2 error herror)
  exact hrefused.2

/-- The server never sees a frame, and says so. -/
def lostAtOnce : Exchange :=
  runs (Exchange.step fun _ => "") (fun _ a => a.breaks = false)
    (.start [.ok [7]] ⟨⟨.empty⟩, ⟨.empty⟩, .replace⟩)
    [.pull, .lose 0 ⟨.unavailable, "connection reset"⟩, .readHeader, .receive]

theorem refusal_is_final_of_lost : lostAtOnce.answer.isSome = true ∧
    (runs (Exchange.step fun _ => "") (fun _ _ => True) lostAtOnce
      [.drop]).published = none :=
  ⟨rfl, refusal_is_final (steps_runs _ _) rfl (steps_runs _ _)⟩

end Results

end Copy

end FilePeeker
