import FilePeeker.Lib.Steps
import FilePeeker.Lib.Utf8
import Mathlib.Data.List.TakeWhile

/-!
# A program that writes to a peer and reads from it

A program's next command is to write some bytes, to read so many bytes or one line, or to
stop.  `Dialogue` is such a program on a stream whose bytes arrive in pieces, cut anywhere;
what it has not asked for stays in the buffer.  `Gives` says the same with all the bytes
there from the beginning, and no pieces.

However the bytes arrive, every run of the one comes to an end, and it is the end of the
other (`ends_alike`).
-/

namespace FilePeeker

/-- What a program waits for: so many bytes, or the end of a line. -/
inductive Frame
  | exactly (n : Nat)
  | line
deriving DecidableEq, Repr

namespace Frame

def lineFeed : UInt8 := 0x0A

/-- What is read of a buffer that holds enough, and what is left of it. -/
def cut : Frame → Bytes → Option (Bytes × Bytes)
  | exactly n, buffer => if n ≤ buffer.length then some (buffer.take n, buffer.drop n) else none
  | line, buffer =>
    match buffer.dropWhile (· ≠ lineFeed) with
    | [] => none
    | _ :: rest => some (buffer.takeWhile (· ≠ lineFeed) ++ [lineFeed], rest)

variable {frame : Frame} {buffer text rest more : Bytes} {n : Nat}

theorem cut_exactly (h : text.length = n) : cut (.exactly n) (text ++ rest) = some (text, rest) := by
  subst h
  simp [cut]

theorem cut_exactly_eq_some (h : cut (.exactly n) buffer = some (text, rest)) :
    buffer = text ++ rest ∧ text.length = n := by
  simp only [cut] at h
  split at h
  · rename_i hle
    cases h
    exact ⟨(List.take_append_drop _ _).symm, List.length_take_of_le hle⟩
  · cases h

theorem cut_line (h : lineFeed ∉ text) :
    cut .line (text ++ [lineFeed] ++ rest) = some (text ++ [lineFeed], rest) := by
  have hall : ∀ c ∈ text, (decide (c ≠ lineFeed)) = true := fun c hc => by
    simpa using fun heq : c = lineFeed => h (heq ▸ hc)
  simp only [cut, List.append_assoc, List.dropWhile_append_of_pos hall,
    List.takeWhile_append_of_pos hall]
  simp

theorem cut_line_eq_some (h : cut .line buffer = some (text, rest)) :
    ∃ content, text = content ++ [lineFeed] ∧ lineFeed ∉ content ∧ buffer = text ++ rest := by
  simp only [cut] at h
  split at h
  · cases h
  · rename_i c rest' hdrop
    cases h
    have hc : c = lineFeed := by
      have := List.head?_dropWhile_not (· ≠ lineFeed) buffer
      rw [hdrop] at this
      simpa using this
    have hwhole := List.takeWhile_append_dropWhile (p := (· ≠ lineFeed)) (l := buffer)
    rw [hdrop, hc] at hwhole
    refine ⟨_, rfl, fun hmem => by simpa using List.mem_takeWhile_imp hmem, ?_⟩
    rw [List.append_assoc, List.singleton_append, hwhole]

/-- What is behind what is read does not matter. -/
theorem cut_append (h : cut frame buffer = some (text, rest)) (more : Bytes) :
    cut frame (buffer ++ more) = some (text, rest ++ more) := by
  cases frame with
  | exactly n =>
    obtain ⟨rfl, hlen⟩ := cut_exactly_eq_some h
    rw [List.append_assoc]
    exact cut_exactly hlen
  | line =>
    obtain ⟨content, rfl, hnot, rfl⟩ := cut_line_eq_some h
    rw [List.append_assoc]
    exact cut_line hnot

end Frame

/-- What a program does next. -/
inductive Command (σ ρ : Type)
  | done (result : ρ)
  | write (text : Bytes) (next : σ)
  /-- At the end of the stream there may be too little. -/
  | read (frame : Frame) (next eof : Bytes → σ)

/-- A program under way: what has arrived, what is still to arrive, piece by piece, and what
it has written. -/
structure Dialogue (σ : Type) where
  place : σ
  buffer : Bytes
  incoming : List Bytes
  written : Bytes
deriving DecidableEq

namespace Dialogue

variable {σ ρ : Type} {command : σ → Command σ ρ} {closes : Bool} {d d' : Dialogue σ}
  {s : σ} {input w rest : Bytes} {r : ρ} {n : Nat}

inductive Action
  | arrive
  | go
deriving DecidableEq

def begin (place : σ) (incoming : List Bytes) : Dialogue σ := ⟨place, [], incoming, []⟩

/-- One step, where `closes` says that the peer closes its end behind what it sends. -/
def step (command : σ → Command σ ρ) (closes : Bool) (d : Dialogue σ) :
    Action → Option (Dialogue σ)
  | .arrive =>
    match d.incoming with
    | [] => none
    | piece :: incoming => some { d with buffer := d.buffer ++ piece, incoming := incoming }
  | .go =>
    match command d.place with
    | .done _ => none
    | .write text next => some { d with place := next, written := d.written ++ text }
    | .read frame next eof =>
      match frame.cut d.buffer with
      | some (text, rest) => some { d with place := next text, buffer := rest }
      | none =>
        if d.incoming = [] ∧ closes then some { d with place := eof d.buffer, buffer := [] }
        else none

/-- Every byte the program has not read. -/
def unread (d : Dialogue σ) : Bytes := d.buffer ++ d.incoming.flatten

/-- With all of `input` there, the program writes `written` and ends with `result` in so many
steps, and leaves `rest` of it. -/
inductive Gives (command : σ → Command σ ρ) (closes : Bool) :
    σ → Bytes → Bytes → ρ → Bytes → Nat → Prop
  | done {s : σ} {input : Bytes} {result : ρ} (h : command s = .done result) :
      Gives command closes s input [] result input 0
  | write {s next : σ} {input text written rest : Bytes} {result : ρ} {n : Nat}
      (h : command s = .write text next)
      (hnext : Gives command closes next input written result rest n) :
      Gives command closes s input (text ++ written) result rest (n + 1)
  | read {s : σ} {frame : Frame} {next eof : Bytes → σ} {input text left written rest : Bytes}
      {result : ρ} {n : Nat} (h : command s = .read frame next eof)
      (hcut : frame.cut input = some (text, left))
      (hnext : Gives command closes (next text) left written result rest n) :
      Gives command closes s input written result rest (n + 1)
  | eof {s : σ} {frame : Frame} {next eof : Bytes → σ} {input written rest : Bytes} {result : ρ}
      {n : Nat} (h : command s = .read frame next eof) (hcut : frame.cut input = none)
      (hcloses : closes = true)
      (hnext : Gives command closes (eof input) [] written result rest n) :
      Gives command closes s input written result rest (n + 1)

/-- What is to come of a dialogue under way. -/
def Ahead (command : σ → Command σ ρ) (closes : Bool) (w : Bytes) (r : ρ) (rest : Bytes)
    (d : Dialogue σ) (n : Nat) : Prop :=
  ∃ written, d.written ++ written = w ∧
    Gives command closes d.place d.unread written r rest n

/-- **A step keeps what is to come**, and brings it nearer. -/
theorem ahead_step {a : Action} (h : Ahead command closes w r rest d n)
    (hstep : d.step command closes a = some d') :
    (∃ n', Ahead command closes w r rest d' n' ∧ n = n' + 1) ∨
      (Ahead command closes w r rest d' n ∧ d'.incoming.length < d.incoming.length) := by
  obtain ⟨written, hw, hgives⟩ := h
  cases a with
  | arrive =>
    simp only [step] at hstep
    split at hstep
    · cases hstep
    · rename_i piece incoming hin
      cases hstep
      refine .inr ⟨⟨written, hw, ?_⟩, by simp [hin]⟩
      simpa only [unread, hin, List.flatten_cons, List.append_assoc] using hgives
  | go =>
    refine .inl ?_
    simp only [step] at hstep
    cases hgives with
    | done hc => rw [hc] at hstep; cases hstep
    | write hc hnext =>
      rw [hc] at hstep
      cases hstep
      exact ⟨_, ⟨_, by rw [← hw, List.append_assoc], hnext⟩, rfl⟩
    | read hc hcut hnext =>
      simp only [hc] at hstep
      split at hstep
      · rename_i text left hhere
        cases hstep
        rw [unread, Frame.cut_append hhere] at hcut
        cases hcut
        exact ⟨_, ⟨_, hw, hnext⟩, rfl⟩
      · rename_i hhere
        split at hstep
        · rename_i hend
          rw [unread, hend.1, List.flatten_nil, List.append_nil, hhere] at hcut
          cases hcut
        · cases hstep
    | eof hc hcut _ hnext =>
      simp only [hc] at hstep
      split at hstep
      · rename_i text left hhere
        rw [unread, Frame.cut_append hhere] at hcut
        cases hcut
      · split at hstep
        · rename_i hend
          cases hstep
          rw [unread, hend.1, List.flatten_nil, List.append_nil] at hnext
          exact ⟨_, ⟨_, hw, by simpa [unread, hend.1] using hnext⟩, rfl⟩
        · cases hstep

/-- **Where nothing can happen the program is done**, with nothing to come. -/
theorem ahead_rest (h : Ahead command closes w r rest d n)
    (hrest : ∀ a, d.step command closes a = none) :
    command d.place = .done r ∧ d.written = w ∧ d.buffer = rest ∧ d.incoming = [] := by
  obtain ⟨written, hw, hgives⟩ := h
  have hin : d.incoming = [] := by
    have harrive := hrest .arrive
    simp only [step] at harrive
    split at harrive
    · assumption
    · cases harrive
  have hall : d.unread = d.buffer := by rw [unread, hin, List.flatten_nil, List.append_nil]
  have hgo := hrest .go
  simp only [step] at hgo
  rw [hall] at hgives
  cases hgives with
  | done hc => exact ⟨hc, by rw [← hw, List.append_nil], rfl, hin⟩
  | write hc _ => rw [hc] at hgo; cases hgo
  | read hc hcut _ => simp only [hc, hcut] at hgo; cases hgo
  | eof hc hcut hcloses _ =>
    simp only [hc, hcut, hin, hcloses, and_self, if_true] at hgo
    cases hgo

theorem rests_of_ahead (h : Ahead command closes w r rest d n) :
    Rests (step command closes) (fun _ _ => True) d := by
  induction n using Nat.strongRecOn generalizing d with
  | ind n ih =>
    induction hm : d.incoming.length using Nat.strongRecOn generalizing d with
    | ind m ihm =>
      refine ⟨d, fun d' ⟨a, _, hstep⟩ => ?_⟩
      rcases ahead_step h hstep with ⟨n', h', rfl⟩ | ⟨h', hlt⟩
      · exact ih n' (Nat.lt_succ_self _) h'
      · exact ihm _ (hm ▸ hlt) h' rfl

theorem ahead_of_steps (hrun : Steps (step command closes) (fun _ _ => True) d d')
    (h : Ahead command closes w r rest d n) : ∃ n', Ahead command closes w r rest d' n' := by
  refine hrun.invariant (I := fun d => ∃ n, Ahead command closes w r rest d n) ?_ ⟨n, h⟩
  rintro d a d' ⟨n, h⟩ _ hstep
  rcases ahead_step h hstep with ⟨n', h', _⟩ | ⟨h', _⟩
  · exact ⟨n', h'⟩
  · exact ⟨n, h'⟩

/-- However the bytes of a stream arrive, a program that is run on it ends this way. -/
def AlwaysEnds (command : σ → Command σ ρ) (closes : Bool) (s : σ) (input w : Bytes) (r : ρ)
    (rest : Bytes) : Prop :=
  ∀ pieces : List Bytes, pieces.flatten = input →
    Rests (step command closes) (fun _ _ => True) (begin s pieces) ∧
    ∀ d, Steps (step command closes) (fun _ _ => True) (begin s pieces) d →
      (∀ a, d.step command closes a = none) →
        command d.place = .done r ∧ d.written = w ∧ d.buffer = rest ∧ d.incoming = []

/-- **However the bytes arrive, the program ends as it does with all of them there.** -/
theorem ends_alike (h : Gives command closes s input w r rest n) :
    AlwaysEnds command closes s input w r rest := by
  rintro pieces rfl
  have hahead : Ahead command closes w r rest (begin s pieces) n := ⟨w, rfl, h⟩
  refine ⟨rests_of_ahead hahead, fun d hrun hrest => ?_⟩
  obtain ⟨n', h'⟩ := ahead_of_steps hrun hahead
  exact ahead_rest h' hrest

/-- What is to come after a step was to come before it. -/
theorem ahead_of_step {a : Action} (hstep : d.step command closes a = some d')
    (h : Ahead command closes w r rest d' n) : ∃ n', Ahead command closes w r rest d n' := by
  obtain ⟨written, hw, hgives⟩ := h
  cases a with
  | arrive =>
    simp only [step] at hstep
    split at hstep
    · cases hstep
    · rename_i piece incoming hin
      cases hstep
      refine ⟨n, written, hw, ?_⟩
      simpa only [unread, hin, List.flatten_cons, List.append_assoc] using hgives
  | go =>
    simp only [step] at hstep
    split at hstep
    · cases hstep
    · rename_i text next hc
      cases hstep
      exact ⟨_, _, by rw [← hw, List.append_assoc], .write hc hgives⟩
    · rename_i frame next eof hc
      split at hstep
      · rename_i text left hcut
        cases hstep
        exact ⟨_, _, hw, .read hc (Frame.cut_append hcut _) hgives⟩
      · rename_i hcut
        split at hstep
        · rename_i hend
          cases hstep
          have hall : d.unread = d.buffer := by
            rw [unread, hend.1, List.flatten_nil, List.append_nil]
          rw [unread, hend.1, List.flatten_nil, List.append_nil] at hgives
          have hhere := Gives.eof hc hcut hend.2 hgives
          exact ⟨_, _, hw, hall ▸ hhere⟩
        · cases hstep

theorem ahead_of_steps_to (hrun : Steps (step command closes) (fun _ _ => True) d d')
    (h : Ahead command closes w r rest d' n) : ∃ n', Ahead command closes w r rest d n' := by
  induction hrun generalizing n with
  | refl => exact ⟨n, h⟩
  | tail _ _ hstep ih =>
    obtain ⟨n', h'⟩ := ahead_of_step hstep h
    exact ih h'

/-- **A program ends so however the bytes arrive exactly if it does with all of them there.** -/
theorem alwaysEnds_iff : AlwaysEnds command closes s input w r rest ↔
    ∃ n, Gives command closes s input w r rest n := by
  refine ⟨fun h => ?_, fun ⟨_, h⟩ => ends_alike h⟩
  obtain ⟨hrests, hend⟩ := h [input] List.flatten_singleton
  obtain ⟨d, hrun, hrest⟩ := hrests.exists_rest
  obtain ⟨hr, hw, hb, hin⟩ := hend d hrun fun a => hrest a trivial
  have hunread : d.unread = rest := by rw [unread, hin, hb, List.flatten_nil, List.append_nil]
  have hover : Ahead command closes w r rest d 0 :=
    ⟨[], by rw [hw, List.append_nil], by rw [hunread]; exact .done hr⟩
  obtain ⟨n, written, rfl, hgives⟩ := ahead_of_steps_to hrun hover
  exact ⟨n, by simpa [begin, unread] using hgives⟩

/-! ### A loop that reads lines -/

/-- One line, with its end. -/
def IsLine (text : Bytes) : Prop := ∃ content, text = content ++ [Frame.lineFeed] ∧
  Frame.lineFeed ∉ content

theorem IsLine.cut {text : Bytes} (h : IsLine text) (rest : Bytes) :
    Frame.cut .line (text ++ rest) = some (text, rest) := by
  obtain ⟨content, rfl, hnot⟩ := h
  exact Frame.cut_line hnot

section Loop

variable {loop : Bytes → σ} {onLine onEof : Bytes → Bytes → σ} {skips : Bytes → Bool}
  {seen : Bytes} {lines : List Bytes}

/-- A loop that goes on with the lines it skips, and keeps them. -/
structure IsLoop (command : σ → Command σ ρ) (loop : Bytes → σ) (onLine onEof : Bytes → Bytes → σ)
    (skips : Bytes → Bool) : Prop where
  reads : ∀ seen, command (loop seen) = .read .line (onLine seen) (onEof seen)
  goesOn : ∀ seen text, skips text = true → onLine seen text = loop (seen ++ text)

/-- One round of a loop. -/
theorem IsLoop.line_inv {text : Bytes} (hl : IsLoop command loop onLine onEof skips)
    (hline : IsLine text)
    (h : Gives command closes (loop seen) (text ++ input) w r rest n) :
    ∃ m, Gives command closes (onLine seen text) input w r rest m := by
  cases h with
  | done hc => rw [hl.reads] at hc; cases hc
  | write hc _ => rw [hl.reads] at hc; cases hc
  | eof hc hcut _ _ =>
    rw [hl.reads] at hc
    cases hc
    rw [hline.cut] at hcut
    cases hcut
  | read hc hcut hnext =>
    rw [hl.reads] at hc
    cases hc
    rw [hline.cut] at hcut
    cases hcut
    exact ⟨_, hnext⟩

theorem IsLoop.gives (hl : IsLoop command loop onLine onEof skips) (seen : Bytes)
    (hlines : ∀ text ∈ lines, IsLine text ∧ skips text = true)
    (h : Gives command closes (loop (seen ++ lines.flatten)) input w r rest n) :
    ∃ m, Gives command closes (loop seen) (lines.flatten ++ input) w r rest m := by
  induction lines generalizing seen with
  | nil =>
    rw [List.flatten_nil, List.append_nil] at h
    exact ⟨n, h⟩
  | cons text lines ih =>
    obtain ⟨⟨hline, hskip⟩, hlines⟩ := List.forall_mem_cons.mp hlines
    rw [List.flatten_cons, ← List.append_assoc] at h
    obtain ⟨m, hm⟩ := ih _ hlines h
    rw [← hl.goesOn seen text hskip] at hm
    refine ⟨m + 1, .read (hl.reads seen) ?_ hm⟩
    rw [List.flatten_cons, List.append_assoc]
    exact hline.cut _

/-- A loop has come past the lines it skips. -/
theorem IsLoop.gives_inv (hl : IsLoop command loop onLine onEof skips)
    (hlines : ∀ text ∈ lines, IsLine text ∧ skips text = true)
    (h : Gives command closes (loop seen) (lines.flatten ++ input) w r rest n) :
    ∃ m, Gives command closes (loop (seen ++ lines.flatten)) input w r rest m := by
  induction lines generalizing seen n with
  | nil =>
    rw [List.flatten_nil, List.append_nil]
    exact ⟨n, h⟩
  | cons text lines ih =>
    obtain ⟨⟨hline, hskip⟩, hlines⟩ := List.forall_mem_cons.mp hlines
    rw [List.flatten_cons, List.append_assoc] at h
    obtain ⟨m, hm⟩ := hl.line_inv hline h
    rw [hl.goesOn seen text hskip] at hm
    obtain ⟨k, hk⟩ := ih hlines hm
    exact ⟨k, by rwa [List.flatten_cons, ← List.append_assoc]⟩

/-- **A loop over lines comes to one it does not skip, or to the end.** -/
theorem IsLoop.cases (hl : IsLoop command loop onLine onEof skips) (seen : Bytes)
    (h : Gives command closes (loop seen) input w r rest n) :
    ∃ lines : List Bytes, (∀ text ∈ lines, IsLine text ∧ skips text = true) ∧
      ((∃ text left m, IsLine text ∧ skips text = false ∧ input = lines.flatten ++ text ++ left ∧
          Gives command closes (onLine (seen ++ lines.flatten) text) left w r rest m) ∨
        ∃ left m, input = lines.flatten ++ left ∧
          Gives command closes (onEof (seen ++ lines.flatten) left) [] w r rest m) := by
  induction n using Nat.strongRecOn generalizing seen input with
  | ind n ih =>
    cases h with
    | done hc => rw [hl.reads] at hc; cases hc
    | write hc _ => rw [hl.reads] at hc; cases hc
    | eof hc hcut _ hnext =>
      rw [hl.reads] at hc
      cases hc
      exact ⟨[], nofun, .inr ⟨input, _, rfl, by simpa using hnext⟩⟩
    | @read _ _ _ _ _ text left _ _ _ m hc hcut hnext =>
      rw [hl.reads] at hc
      cases hc
      obtain ⟨content, htext, hnot, rfl⟩ := Frame.cut_line_eq_some hcut
      have hline : IsLine text := ⟨content, htext, hnot⟩
      cases hskip : skips text with
      | false =>
        exact ⟨[], nofun, .inl ⟨text, left, m, hline, hskip, rfl, by simpa using hnext⟩⟩
      | true =>
        rw [hl.goesOn seen text hskip] at hnext
        obtain ⟨lines, hlines, hcases⟩ := ih m (Nat.lt_succ_self m) _ hnext
        refine ⟨text :: lines, List.forall_mem_cons.mpr ⟨⟨hline, hskip⟩, hlines⟩, ?_⟩
        rcases hcases with ⟨last, left', k, hlast, hno, rfl, hk⟩ | ⟨left', k, rfl, hk⟩
        · refine .inl ⟨last, left', k, hlast, hno, by simp, ?_⟩
          simpa only [List.flatten_cons, List.append_assoc] using hk
        · refine .inr ⟨left', k, by simp, ?_⟩
          simpa only [List.flatten_cons, List.append_assoc] using hk

end Loop

/-- A program ends one way, if it does. -/
theorem AlwaysEnds.unique {w' rest' : Bytes} {r' : ρ}
    (h : AlwaysEnds command closes s input w r rest)
    (h' : AlwaysEnds command closes s input w' r' rest') : w = w' ∧ r = r' ∧ rest = rest' := by
  obtain ⟨hrests, hend⟩ := h [input] List.flatten_singleton
  obtain ⟨d, hrun, hrest⟩ := hrests.exists_rest
  have hrest : ∀ a, d.step command closes a = none := fun a => hrest a trivial
  obtain ⟨hr, hw, hb, -⟩ := hend d hrun hrest
  obtain ⟨hr', hw', hb', -⟩ := (h' [input] List.flatten_singleton).2 d hrun hrest
  rw [hr] at hr'
  cases hr'
  exact ⟨hw.symm.trans hw', rfl, hb.symm.trans hb'⟩

end Dialogue

end FilePeeker
