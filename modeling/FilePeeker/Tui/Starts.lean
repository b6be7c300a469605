import FilePeeker.Lib.Steps
import FilePeeker.Tui.Connection

/-!
# Which command a server is started for

A connection reads its commands only while it waits for its next attempt, and
never throws one away.  A command that the wait does not take, because another was
taken first or the wait was over, is taken in a later one: it starts a server that
the user has meanwhile stopped (`stale_command_starts_server`).

`starts_of_this_disconnection` says that this is the only way: where no command is
left when a disconnection begins, every server is started for a command given
while this disconnection was in effect.  No command ever starts two
(`one_start_per_press`).
-/

namespace FilePeeker.Tui

namespace Connection

variable {b : Backoff} {c c' : Connection} {act : RunAct} {queued : Queued}

/-- The command that was taken and not yet acted on. -/
def held (c : Connection) : Option Queued :=
  match c.pc with
  | .starting queued => some queued
  | _ => none

/-- The commands that may still start a server. -/
def pending (c : Connection) : List Queued := c.held.toList ++ c.commands

/-- **What one step of `run` does** to the commands and the disconnection. -/
theorem run_cases (h : c.run b act = some c') :
    (c.starts act = none ∧ c'.pending = c.pending ∧
        (c'.inEffect = c.inEffect ∨ c'.inEffect = none)) ∨
    (c.starts act = none ∧ c'.pending = c.pending ∧ c.pending = c.commands ∧
      ((∃ lost now, act = .notAttached lost now) ∨ ∃ now, act = .streamEnds now)) ∨
    ∃ queued, c.starts act = some queued ∧ c.pending = queued :: c'.pending ∧
      c.inEffect = some c.disconnections ∧ c'.inEffect = none := by
  cases act with
  | send =>
    cases hpc : c.pc with
    | starting queued =>
      simp only [run, hpc, emit] at h
      split at h
      · obtain rfl := Option.some.inj h
        exact .inr (.inr ⟨queued, by simp [starts, hpc], by simp [pending, held, hpc],
          by simp [inEffect, hpc], by simp [inEffect]⟩)
      · simp at h
    | top | attached _ _ | tasks _ | lost _ =>
      simp only [run, hpc, emit] at h
      split at h
      · obtain rfl := Option.some.inj h
        exact .inl ⟨by simp [starts, hpc], by simp [pending, held, hpc], by simp [inEffect, hpc]⟩
      · simp at h
    | attach | watching | waiting | startServer => simp [run, hpc] at h
  | attached serverVersion pid =>
    rw [run] at h
    split at h
    · next hpc =>
      obtain rfl := Option.some.inj h
      exact .inl ⟨rfl, by simp [pending, held, hpc], by simp [inEffect]⟩
    · simp at h
  | notAttached lost now =>
    rw [run] at h
    split at h
    · next hpc =>
      obtain rfl := Option.some.inj h
      exact .inr (.inl ⟨rfl, by simp [pending, held, lose, hpc], by simp [pending, held, hpc],
        .inl ⟨lost, now, rfl⟩⟩)
    · simp at h
  | update update =>
    rw [run] at h
    split at h
    · next hpc =>
      obtain rfl := Option.some.inj h
      exact .inl ⟨rfl, by simp [pending, held, hpc], by simp [inEffect]⟩
    · simp at h
  | streamEnds now =>
    rw [run] at h
    split at h
    · next hpc =>
      obtain rfl := Option.some.inj h
      exact .inr (.inl ⟨rfl, by simp [pending, held, lose, hpc], by simp [pending, held, hpc],
        .inr ⟨now, rfl⟩⟩)
    · simp at h
  | elapse =>
    rw [run] at h
    split at h
    · next hpc =>
      obtain rfl := Option.some.inj h
      exact .inl ⟨rfl, by simp [pending, held, hpc], by simp [inEffect]⟩
    · simp at h
  | command =>
    rw [run] at h
    split at h
    · next hpc =>
      split at h
      · simp at h
      · next queued commands hcommands =>
        obtain rfl := Option.some.inj h
        exact .inl ⟨rfl, by simp [pending, held, hpc, hcommands], .inl (by simp [inEffect, hpc])⟩
    · simp at h
  | serverStarted =>
    rw [run] at h
    split at h
    · next hpc =>
      obtain rfl := Option.some.inj h
      exact .inl ⟨rfl, by simp [pending, held, hpc], by simp [inEffect]⟩
    · simp at h

theorem pending_trySend (c : Connection) (queued : Queued) :
    (c.trySend queued).inEffect = c.inEffect ∧
      ((c.trySend queued).pending = c.pending ∨ (c.trySend queued).pending = c.pending ++ [queued]) := by
  unfold trySend
  split
  · refine ⟨rfl, .inr ?_⟩
    rw [pending, pending, List.append_assoc]
    rfl
  · exact ⟨rfl, .inl rfl⟩

end Connection

/-! ### What a step does -/

/-- A disconnection begins only where no command is left. -/
def Drained (w : World) : WorldAct → Prop
  | .run index (.notAttached _ _) | .run index (.streamEnds _) =>
    ∀ c ∈ w.connections[index]?, c.commands = []
  | _ => True

instance (w : World) : (act : WorldAct) → Decidable (Drained w act)
  | .run index (.notAttached _ _) | .run index (.streamEnds _) =>
    inferInstanceAs (Decidable (∀ c ∈ w.connections[index]?, c.commands = []))
  | .run _ .send | .run _ (.attached _ _) | .run _ (.update _) | .run _ .elapse | .run _ .command
  | .run _ .serverStarted | .key _ _ | .mouse _ _ _ _ _ | .receive _ _ | .tick _ | .tag _
  | .merge _ => .isTrue trivial

/-- A connection has the commands it had. -/
structure Connection.Same (c c' : Connection) : Prop where
  pending : c'.pending = c.pending
  inEffect : c'.inEffect = c.inEffect ∨ c'.inEffect = none

theorem Connection.Same.refl (c : Connection) : c.Same c := ⟨rfl, .inl rfl⟩

/-- No command is given and none starts a server; and a connection that is not as
it was has just lost its attachment. -/
structure World.Quiet (w w' : World) (act : WorldAct) : Prop where
  issued : w'.issued = w.issued
  starts : w'.starts = w.starts
  connections : ∀ (i : Nat) (c' : Connection), w'.connections[i]? = some c' →
    ∃ c, w.connections[i]? = some c ∧ (c.Same c' ∨
      c'.pending = c.pending ∧ (Drained w act → c.pending = []))

/-- Connection `i` is given a command. -/
def World.Gives (w w' : World) (i : Nat) (c : Connection) : Prop :=
  ∃ command, w.connections[i]? = some c ∧
    w'.connections = w.connections.set i (c.trySend { command, press := w.issued.length }) ∧
    w'.issued = w.issued ++ [{ machine := i, during := c.inEffect }] ∧ w'.starts = w.starts

/-- Connection `i` starts a server. -/
structure World.Starts (w w' : World) (i : Nat) (c c' : Connection) (queued : Queued) : Prop where
  before : w.connections[i]? = some c
  connections : w'.connections = w.connections.set i c'
  pending : c.pending = queued :: c'.pending
  inEffect : c.inEffect = some c.disconnections
  leaves : c'.inEffect = none
  issued : w'.issued = w.issued
  starts : w'.starts = w.starts ++
    [{ machine := i, press := queued.press, disconnection := c.disconnections }]

variable {w w' : World} {act : WorldAct} {i j : Nat} {c c' : Connection} {queued : Queued}

theorem connections_cases {cs : List Connection} (h : (cs.set i c')[j]? = some c) :
    j = i ∧ c = c' ∨ j ≠ i ∧ cs[j]? = some c := by
  rw [List.getElem?_set] at h
  split at h
  · next heq =>
    split at h
    · exact .inl ⟨heq.symm, (Option.some.inj h).symm⟩
    · simp at h
  · next hne => exact .inr ⟨fun heq => hne heq.symm, h⟩

/-- A change of one connection that keeps its commands. -/
theorem World.quiet_set (hc : w.connections[i]? = some c)
    (hsame : c.Same c' ∨ c'.pending = c.pending ∧ (Drained w act → c.pending = []))
    (hissued : w'.issued = w.issued) (hstarts : w'.starts = w.starts)
    (hset : w'.connections = w.connections.set i c') : w.Quiet w' act := by
  refine ⟨hissued, hstarts, fun j d hd => ?_⟩
  rw [hset] at hd
  rcases connections_cases hd with ⟨rfl, rfl⟩ | ⟨-, hd⟩
  · exact ⟨c, hc, hsame⟩
  · exact ⟨d, hd, .inl (.refl d)⟩

theorem World.quiet_of_connections (hissued : w'.issued = w.issued) (hstarts : w'.starts = w.starts)
    (h : w'.connections = w.connections) : w.Quiet w' act :=
  ⟨hissued, hstarts, fun _ c hc => ⟨c, h ▸ hc, .inl (.refl c)⟩⟩

theorem issue_cases {answer : App × Option Command} (h : w.issue answer = some w') :
    w.Quiet w' act ∨ ∃ i c, w.Gives w' i c := by
  obtain ⟨app, command⟩ := answer
  cases command with
  | none =>
    obtain rfl := Option.some.inj h
    exact .inl (World.quiet_of_connections rfl rfl rfl)
  | some command =>
    simp only [World.issue, Option.bind_eq_bind, Option.bind_eq_some_iff] at h
    obtain ⟨c, hc, h⟩ := h
    obtain rfl := Option.some.inj h
    exact .inr ⟨app.selected, c, command, hc, rfl, rfl, rfl⟩

/-- **What any step does** to the commands. -/
theorem step_cases (h : w.step act = some w') : w.Quiet w' act ∨ (∃ i c, w.Gives w' i c) ∨
    ∃ i c c' queued, w.Starts w' i c c' queued := by
  rw [World.step.eq_def] at h
  split at h
  · simp at h
  · cases act with
    | key now key =>
      rcases issue_cases h with h | h
      · exact .inl h
      · exact .inr (.inl h)
    | mouse now kind spot column row =>
      rcases issue_cases h with h | h
      · exact .inl h
      · exact .inr (.inl h)
    | receive now received =>
      simp only at h
      split at h
      · simp at h
      · obtain rfl := Option.some.inj h
        exact .inl (World.quiet_of_connections rfl rfl rfl)
    | tick now =>
      obtain rfl := Option.some.inj h
      exact .inl (World.quiet_of_connections rfl rfl rfl)
    | run index act =>
      simp only [Option.bind_eq_bind, Option.bind_eq_some_iff] at h
      obtain ⟨c, hc, c', hrun, h⟩ := h
      obtain rfl := Option.some.inj h
      rcases Connection.run_cases hrun with
        ⟨hstart, hpending, heffect⟩ | ⟨hstart, hpending, hcommands, hloses⟩ |
          ⟨queued, hstart, hpending, heffect, hover⟩
      · refine .inl (World.quiet_set hc (.inl ⟨hpending, heffect⟩) rfl ?_ rfl)
        simp [hstart]
      · refine .inl (World.quiet_set hc (.inr ⟨hpending, fun hdrained => ?_⟩) rfl ?_ rfl)
        · rw [hcommands]
          rcases hloses with ⟨lost, now, rfl⟩ | ⟨now, rfl⟩
          · exact hdrained c hc
          · exact hdrained c hc
        · simp [hstart]
      · exact .inr (.inr ⟨index, c, c', queued, hc, rfl, hpending, heffect, hover, rfl,
          by simp [hstart]⟩)
    | tag index =>
      simp only [Option.bind_eq_bind, Option.bind_eq_some_iff] at h
      obtain ⟨c, hc, c', htag, h⟩ := h
      obtain rfl := Option.some.inj h
      refine .inl (World.quiet_set hc (.inl ?_) rfl rfl rfl)
      unfold Connection.tag at htag
      split at htag
      · obtain rfl := Option.some.inj htag
        exact ⟨rfl, .inl rfl⟩
      · simp at htag
    | merge index =>
      simp only [Option.bind_eq_bind, Option.bind_eq_some_iff] at h
      obtain ⟨c, hc, event, htagged, h⟩ := h
      split at h
      · obtain rfl := Option.some.inj h
        have hsame : c.Same { c with tagged := none } := ⟨rfl, .inl rfl⟩
        exact .inl (World.quiet_set hc (.inl hsame) rfl rfl rfl)
      · simp at h

/-! ### One start for a command -/

/-- What holds at all times, in any run. -/
structure Single (w : World) : Prop where
  starts : (w.starts.map Start.press).Nodup
  started : ∀ start ∈ w.starts, ∃ during,
    w.issued[start.press]? = some { machine := start.machine, during }
  pending : ∀ (i : Nat) (c : Connection), w.connections[i]? = some c →
    (c.pending.map Queued.press).Nodup ∧ ∀ queued ∈ c.pending,
      (∃ during, w.issued[queued.press]? = some { machine := i, during }) ∧
        queued.press ∉ w.starts.map Start.press

theorem issued_kept {issued : List Issued} {p : Nat} {x y : Issued} (h : issued[p]? = some x) :
    (issued ++ [y])[p]? = some x := by
  rw [List.getElem?_append_left (List.getElem?_eq_some_iff.mp h).1, h]

theorem Single.step (h : Single w) (heq : w.step act = some w') : Single w' := by
  rcases step_cases heq with hquiet | ⟨i, c, command, hc, hset, hissued, hstarts⟩ |
      ⟨i, c, c', queued, hs⟩
  · refine ⟨hquiet.starts ▸ h.starts, ?_, fun i c' hc' => ?_⟩
    · rw [hquiet.starts, hquiet.issued]
      exact h.started
    · obtain ⟨c, hc, hsame⟩ := hquiet.connections i c' hc'
      have hpending : c'.pending = c.pending := by
        rcases hsame with hsame | hsame
        · exact hsame.pending
        · exact hsame.1
      rw [hpending, hquiet.issued, hquiet.starts]
      exact h.pending i c hc
  · have hnew : ∀ p x, w.issued[p]? = some x → p ≠ w.issued.length := by
      intro p x hp
      have := (List.getElem?_eq_some_iff.mp hp).1
      omega
    refine ⟨hstarts ▸ h.starts, fun start hstart => ?_, fun j d hd => ?_⟩
    · rw [hstarts] at hstart
      obtain ⟨during, hduring⟩ := h.started start hstart
      exact ⟨during, hissued ▸ issued_kept hduring⟩
    · rw [hset] at hd
      rw [hstarts, hissued]
      rcases connections_cases hd with ⟨rfl, rfl⟩ | ⟨-, hd⟩
      · obtain ⟨hnodup, hall⟩ := h.pending j c hc
        have hold (queued : Queued) (hq : queued ∈ c.pending) : (∃ during,
            (w.issued ++ [{ machine := j, during := c.inEffect }])[queued.press]? =
              some { machine := j, during }) ∧ queued.press ∉ w.starts.map Start.press := by
          obtain ⟨⟨during, hduring⟩, hnot⟩ := hall queued hq
          exact ⟨⟨during, issued_kept hduring⟩, hnot⟩
        obtain ⟨-, hsame | hmore⟩ :=
          c.pending_trySend { command, press := w.issued.length }
        · rw [hsame]
          exact ⟨hnodup, hold⟩
        · rw [hmore]
          refine ⟨?_, fun queued hq => ?_⟩
          · rw [List.map_append, List.nodup_append]
            refine ⟨hnodup, List.nodup_singleton _, fun p hp q hq heq => ?_⟩
            obtain ⟨queued, hqueued, rfl⟩ := List.mem_map.mp hp
            obtain ⟨⟨during, hduring⟩, -⟩ := hall queued hqueued
            exact hnew _ _ hduring (heq.trans (List.mem_singleton.mp hq))
          · rcases List.mem_append.mp hq with hq | hq
            · exact hold queued hq
            · obtain rfl := List.mem_singleton.mp hq
              refine ⟨⟨c.inEffect, List.getElem?_concat_length⟩, fun hin => ?_⟩
              obtain ⟨start, hstart, hpress⟩ := List.mem_map.mp hin
              obtain ⟨during, hduring⟩ := h.started start hstart
              exact hnew _ _ hduring hpress
      · obtain ⟨hnodup, hall⟩ := h.pending j d hd
        refine ⟨hnodup, fun queued hq => ?_⟩
        obtain ⟨⟨during, hduring⟩, hnot⟩ := hall queued hq
        exact ⟨⟨during, issued_kept hduring⟩, hnot⟩
  · obtain ⟨hnodup, hall⟩ := h.pending i c hs.before
    rw [hs.pending, List.map_cons, List.nodup_cons] at hnodup
    obtain ⟨⟨during, hduring⟩, hnot⟩ := hall queued (by rw [hs.pending]; simp)
    refine ⟨?_, fun start hstart => ?_, fun j d hd => ?_⟩
    · rw [hs.starts, List.map_append, List.nodup_append]
      refine ⟨h.starts, List.nodup_singleton _, fun p hp q hq heq => hnot ?_⟩
      obtain rfl : q = queued.press := List.mem_singleton.mp hq
      exact heq ▸ hp
    · rw [hs.issued]
      rw [hs.starts, List.mem_append, List.mem_singleton] at hstart
      rcases hstart with hstart | rfl
      · exact h.started start hstart
      · exact ⟨during, hduring⟩
    · rw [hs.connections] at hd
      rw [hs.issued, hs.starts, List.map_append]
      -- A command of another machine is another command.
      have hother (q : Queued) (hne : q.press ≠ queued.press)
          (hq : q.press ∉ w.starts.map Start.press) :
          q.press ∉ w.starts.map Start.press ++ List.map Start.press
            [{ machine := i, press := queued.press, disconnection := c.disconnections }] := by
        rw [List.mem_append, not_or]
        exact ⟨hq, fun hin => hne (List.mem_singleton.mp hin)⟩
      rcases connections_cases hd with ⟨rfl, rfl⟩ | ⟨hne, hd⟩
      · refine ⟨hnodup.2, fun q hq => ?_⟩
        obtain ⟨hissued, hq'⟩ := hall q (by rw [hs.pending]; simp [hq])
        refine ⟨hissued, hother q (fun heq => hnodup.1 ?_) hq'⟩
        rw [← heq]
        exact List.mem_map_of_mem hq
      · obtain ⟨hnodup', hall'⟩ := h.pending j d hd
        refine ⟨hnodup', fun q hq => ?_⟩
        obtain ⟨⟨during', hduring'⟩, hq'⟩ := hall' q hq
        refine ⟨⟨during', hduring'⟩, hother q (fun heq => hne ?_) hq'⟩
        rw [heq, hduring, Option.some.injEq, Issued.mk.injEq] at hduring'
        exact hduring'.1.symm

theorem single_new (remotes : List (String × String)) : Single (World.new remotes) := by
  refine ⟨List.nodup_nil, fun start hstart => absurd hstart List.not_mem_nil, fun i c hc => ?_⟩
  obtain rfl : c = .new := List.eq_of_mem_replicate (List.mem_of_getElem? hc)
  exact ⟨List.nodup_nil, fun q hq => absurd hq List.not_mem_nil⟩

/-- **One press starts one server at most**, in any run. -/
theorem one_start_per_press {ok : World → WorldAct → Prop} {remotes : List (String × String)}
    (h : Steps World.step ok (.new remotes) w) : (w.starts.map Start.press).Nodup :=
  (h.invariant (fun _ _ _ hw _ heq => hw.step heq) (single_new remotes)).starts

/-! ### The disconnection it was given in -/

/-- What holds at all times if every disconnection begins with no command left. -/
structure Current (w : World) : Prop where
  starts : ∀ start ∈ w.starts, w.issued[start.press]? =
    some { machine := start.machine, during := some start.disconnection }
  pending : ∀ (i : Nat) (c : Connection) e, w.connections[i]? = some c → c.inEffect = some e →
    ∀ queued ∈ c.pending, w.issued[queued.press]? = some { machine := i, during := some e }

theorem Current.step (h : Current w) (hok : Drained w act) (heq : w.step act = some w') :
    Current w' := by
  rcases step_cases heq with hquiet | ⟨i, c, command, hc, hset, hissued, hstarts⟩ |
      ⟨i, c, c', queued, hs⟩
  · refine ⟨?_, fun i c' e hc' heffect q hq => ?_⟩
    · rw [hquiet.starts, hquiet.issued]
      exact h.starts
    · rw [hquiet.issued]
      obtain ⟨c, hc, hsame | ⟨hpending, hempty⟩⟩ := hquiet.connections i c' hc'
      · rw [hsame.pending] at hq
        rcases hsame.inEffect with hin | hnone
        · exact h.pending i c e hc (hin ▸ heffect) q hq
        · rw [hnone] at heffect
          simp at heffect
      · rw [hpending, hempty hok] at hq
        simp at hq
  · refine ⟨fun start hstart => ?_, fun j d e hd heffect q hq => ?_⟩
    · rw [hstarts] at hstart
      exact hissued ▸ issued_kept (h.starts start hstart)
    · rw [hissued]
      rw [hset] at hd
      rcases connections_cases hd with ⟨rfl, rfl⟩ | ⟨-, hd⟩
      · obtain ⟨hin, hsame⟩ := c.pending_trySend { command, press := w.issued.length }
        rw [hin] at heffect
        rcases hsame with hsame | hmore
        · rw [hsame] at hq
          exact issued_kept (h.pending j c e hc heffect q hq)
        · rw [hmore, List.mem_append, List.mem_singleton] at hq
          rcases hq with hq | rfl
          · exact issued_kept (h.pending j c e hc heffect q hq)
          · rw [heffect]
            exact List.getElem?_concat_length
      · exact issued_kept (h.pending j d e hd heffect q hq)
  · refine ⟨fun start hstart => ?_, fun j d e hd heffect q hq => ?_⟩
    · rw [hs.issued]
      rw [hs.starts, List.mem_append, List.mem_singleton] at hstart
      rcases hstart with hstart | rfl
      · exact h.starts start hstart
      · exact h.pending i c _ hs.before hs.inEffect queued (by rw [hs.pending]; simp)
    · rw [hs.issued]
      rw [hs.connections] at hd
      rcases connections_cases hd with ⟨rfl, rfl⟩ | ⟨-, hd⟩
      · rw [hs.leaves] at heffect
        simp at heffect
      · exact h.pending j d e hd heffect q hq

theorem current_new (remotes : List (String × String)) : Current (World.new remotes) := by
  refine ⟨fun start hstart => absurd hstart List.not_mem_nil, fun i c e hc heffect => ?_⟩
  obtain rfl : c = .new := List.eq_of_mem_replicate (List.mem_of_getElem? hc)
  simp [Connection.new, Connection.inEffect] at heffect

/-- **A server is started only for a command of this disconnection**, in every run
in which no command is left when a disconnection begins: the user gave it for this
machine while the disconnection that is waited out was in effect; and no two
servers are started for one command. -/
theorem starts_of_this_disconnection {remotes : List (String × String)}
    (h : Steps World.step Drained (.new remotes) w) :
    (∀ start ∈ w.starts, w.issued[start.press]? =
      some { machine := start.machine, during := some start.disconnection }) ∧
    (w.starts.map Start.press).Nodup :=
  ⟨(h.invariant (fun _ _ _ hw hok heq => hw.step hok heq) (current_new remotes)).starts,
    one_start_per_press h⟩

/-! ### A server that is started and then stopped -/

/-- The event that connection 0 sends comes to the screen. -/
def shown : List WorldAct := [.run 0 .send, .tag 0, .merge 0, .receive 0 0]

/-- `local` has no server, and the screen says so. -/
def disconnected : List WorldAct := shown ++ .run 0 (.notAttached (.retry none) 0) :: shown

def pressS : WorldAct := .key 0 { code := .char 's', control := false, kind := .press }

/-- Its server is started and attached to, and then the user stops it. -/
def startedAndStopped : List WorldAct :=
  .run 0 .command :: shown ++ .run 0 .serverStarted :: shown ++
    .run 0 (.attached "0.1.0" 1) :: shown ++
    .run 0 (.streamEnds 0) :: shown

/-- `s` is pressed once. -/
def pressedOnce : World :=
  runs World.step Drained (.new []) (disconnected ++ pressS :: startedAndStopped)

theorem reaches_pressedOnce : Steps World.step Drained (.new []) pressedOnce := steps_runs _ _

theorem pressedOnce_starts :
    (∀ start ∈ pressedOnce.starts, pressedOnce.issued[start.press]? =
      some { machine := start.machine, during := some start.disconnection }) ∧
    pressedOnce.starts = [{ machine := 0, press := 0, disconnection := 1 }] :=
  ⟨(starts_of_this_disconnection reaches_pressedOnce).1, by decide +kernel⟩

/-- `s` is pressed twice, and the next wait takes the second one. -/
def pressedTwice : World :=
  runs World.step (fun _ _ => True) (.new [])
    (disconnected ++ pressS :: pressS :: startedAndStopped ++ .run 0 .command :: shown)

/-- The server that the user has stopped is started for a press from before it
was started. -/
theorem stale_command_starts_server :
    Steps World.step (fun _ _ => True) (.new []) pressedTwice ∧
    pressedTwice.issued = [{ machine := 0, during := some 1 }, { machine := 0, during := some 1 }] ∧
    pressedTwice.starts = [{ machine := 0, press := 0, disconnection := 1 },
      { machine := 0, press := 1, disconnection := 2 }] :=
  ⟨steps_runs _ _, by decide +kernel, by decide +kernel⟩

end FilePeeker.Tui
