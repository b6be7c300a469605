import FilePeeker.Lib.Count
import Mathlib.Logic.Function.Basic

/-!
# A gate with room for a few, and a line for each scope

Participants arrive with increasing numbers, each for one scope.  The first in
its scope's line may enter while the scope has room; one in line may leave it;
one inside may go out.  This is the purpose of an admission queue, without the
maps and counters that implement it.

`Gate.Ok` is kept by every step (`Gate.Step.ok`): no scope ever holds more than
it has room for, a scope is entered in the order of arrival, and everyone still
in line arrived after everyone who has entered.
-/

namespace FilePeeker

/-- Where a participant is. -/
inductive Standing
  | waiting
  | inside
  | left
  | out
deriving DecidableEq, Repr

/-- A participant's number, scope and whereabouts. -/
structure Slip (κ : Type*) where
  seq : Nat
  scope : κ
  standing : Standing
deriving DecidableEq

/-- `arrivals` are all participants so far, and `entered` those who have
entered, in the order they did. -/
@[ext] structure Gate (ι κ : Type*) where
  arrivals : List ι
  slip : ι → Option (Slip κ)
  entered : List ι

namespace Gate

variable {ι κ : Type*} [DecidableEq ι] [DecidableEq κ] {cap : κ → Option Nat}
  {g g' : Gate ι κ} {i j : ι} {k : κ} {n m : Nat}

/-- Inside one scope. -/
def isInside (g : Gate ι κ) (k : κ) (i : ι) : Bool :=
  (g.slip i).any fun sl => sl.scope = k && sl.standing = .inside

/-- How many are inside one scope. -/
def inside (g : Gate ι κ) (k : κ) : Nat := g.arrivals.countP (g.isInside k)

/-- Moves one participant. -/
def put (g : Gate ι κ) (i : ι) (sl : Slip κ) : Gate ι κ :=
  { g with slip := Function.update g.slip i (some sl) }

/-- What can happen at the gate. -/
inductive Step (cap : κ → Option Nat) (g : Gate ι κ) : Gate ι κ → Prop
  | arrive {i : ι} {n : Nat} {k : κ} (hi : i ∉ g.arrivals)
      (hn : ∀ j sl, g.slip j = some sl → sl.seq < n) :
      Step cap g { g.put i ⟨n, k, .waiting⟩ with arrivals := g.arrivals ++ [i] }
  | enter {i : ι} {n c : Nat} {k : κ} (hi : g.slip i = some ⟨n, k, .waiting⟩)
      (hfirst : ∀ j m, g.slip j = some ⟨m, k, .waiting⟩ → n ≤ m) (hc : cap k = some c)
      (hroom : g.inside k < c) :
      Step cap g { g.put i ⟨n, k, .inside⟩ with entered := g.entered ++ [i] }
  | leave {i : ι} {n : Nat} {k : κ} (hi : g.slip i = some ⟨n, k, .waiting⟩) :
      Step cap g (g.put i ⟨n, k, .left⟩)
  | exit {i : ι} {n : Nat} {k : κ} (hi : g.slip i = some ⟨n, k, .inside⟩) :
      Step cap g (g.put i ⟨n, k, .out⟩)

/-- What holds of a gate at all times. -/
structure Ok (cap : κ → Option Nat) (g : Gate ι κ) : Prop where
  nodup : g.arrivals.Nodup
  mem : ∀ i, i ∈ g.arrivals ↔ (g.slip i).isSome
  seq_inj : ∀ i j sl sl', g.slip i = some sl → g.slip j = some sl' → sl.seq = sl'.seq → i = j
  entered : ∀ i, i ∈ g.entered ↔
    ∃ sl, g.slip i = some sl ∧ (sl.standing = .inside ∨ sl.standing = .out)
  room : ∀ k c, cap k = some c → g.inside k ≤ c
  order : g.entered.Pairwise fun i j => ∀ sl sl', g.slip i = some sl → g.slip j = some sl' →
    sl.scope = sl'.scope → sl.seq < sl'.seq
  behind : ∀ i ∈ g.entered, ∀ j sl sl', g.slip i = some sl → g.slip j = some sl' →
    sl.scope = sl'.scope → sl'.standing = .waiting → sl.seq < sl'.seq

omit [DecidableEq κ] in
theorem put_slip (sl : Slip κ) (j : ι) :
    (g.put i sl).slip j = if j = i then some sl else g.slip j := Function.update_apply _ _ _ _

/-- One participant moved: the count changes by that participant alone. -/
theorem inside_put (hok : Ok cap g) (hi : i ∈ g.arrivals) (sl : Slip κ) (k : κ) :
    (g.put i sl).inside k + (if g.isInside k i then 1 else 0) =
      g.inside k + (if (g.put i sl).isInside k i then 1 else 0) := by
  refine countP_update hok.nodup hi fun x hx => ?_
  simp only [isInside, put_slip, if_neg hx]

omit [DecidableEq ι] in
theorem Ok.empty : Ok cap (⟨[], fun _ => none, []⟩ : Gate ι κ) where
  nodup := List.nodup_nil
  mem := by simp
  seq_inj := by simp
  entered := by simp
  room := by simp [inside]
  order := List.Pairwise.nil
  behind := by simp

omit [DecidableEq κ] in
@[simp] theorem put_slip_self (sl : Slip κ) : (g.put i sl).slip i = some sl :=
  Function.update_self _ _ _

omit [DecidableEq κ] in
theorem put_slip_of_ne {a : ι} (ha : a ≠ i) (sl : Slip κ) : (g.put i sl).slip a = g.slip a :=
  Function.update_of_ne ha _ _

omit [DecidableEq κ] in
/-- The slips after one is put: that one, and the others there were. -/
theorem put_cases {a : ι} {sl₀ sl : Slip κ} (h : (g.put i sl₀).slip a = some sl) :
    a = i ∧ sl = sl₀ ∨ a ≠ i ∧ g.slip a = some sl := by
  by_cases ha : a = i
  · subst ha
    rw [put_slip_self] at h
    exact .inl ⟨rfl, (Option.some.inj h).symm⟩
  · rw [put_slip_of_ne ha] at h
    exact .inr ⟨ha, h⟩

omit [DecidableEq κ] in
/-- Putting a slip anew keeps its number and its scope. -/
theorem put_keeps {a : ι} {sl : Slip κ} {st st' : Standing} (hi : g.slip i = some ⟨n, k, st⟩)
    (h : (g.put i ⟨n, k, st'⟩).slip a = some sl) :
    ∃ sl₀, g.slip a = some sl₀ ∧ sl₀.seq = sl.seq ∧ sl₀.scope = sl.scope := by
  rcases put_cases h with ⟨rfl, rfl⟩ | ⟨_, ha⟩
  · exact ⟨_, hi, rfl, rfl⟩
  · exact ⟨sl, ha, rfl, rfl⟩

theorem seq_inj_put (hok : Ok cap g) {st st' : Standing} (hi : g.slip i = some ⟨n, k, st⟩) :
    ∀ a b sl sl', (g.put i ⟨n, k, st'⟩).slip a = some sl →
      (g.put i ⟨n, k, st'⟩).slip b = some sl' → sl.seq = sl'.seq → a = b := by
  intro a b sl sl' ha hb hseq
  obtain ⟨sa, hsa, h1, _⟩ := put_keeps hi ha
  obtain ⟨sb, hsb, h2, _⟩ := put_keeps hi hb
  exact hok.seq_inj a b sa sb hsa hsb (by omega)

/-- The order of those who had entered before does not depend on standings. -/
theorem order_put (hok : Ok cap g) {st st' : Standing} (hi : g.slip i = some ⟨n, k, st⟩) :
    g.entered.Pairwise fun a b => ∀ sl sl', (g.put i ⟨n, k, st'⟩).slip a = some sl →
      (g.put i ⟨n, k, st'⟩).slip b = some sl' → sl.scope = sl'.scope → sl.seq < sl'.seq := by
  refine hok.order.imp fun {a b} h sl sl' ha hb hsc => ?_
  obtain ⟨sa, hsa, h1, h2⟩ := put_keeps hi ha
  obtain ⟨sb, hsb, h3, h4⟩ := put_keeps hi hb
  have hlt := h sa sb hsa hsb (by rw [h2, h4, hsc])
  omega

theorem mem_put (hok : Ok cap g) {sl₀ : Slip κ} (hi : g.slip i = some sl₀) (sl : Slip κ) (a : ι) :
    a ∈ g.arrivals ↔ ((g.put i sl).slip a).isSome := by
  rw [hok.mem a]
  by_cases ha : a = i
  · rw [ha, put_slip_self, hi]
    rfl
  · rw [put_slip_of_ne ha]

/-- Whoever arrives is not inside. -/
theorem inside_arrive (hi : i ∉ g.arrivals) (k' : κ) :
    ({ g.put i ⟨n, k, .waiting⟩ with arrivals := g.arrivals ++ [i] } : Gate ι κ).inside k' =
      g.inside k' := by
  change (g.arrivals ++ [i]).countP ((g.put i _).isInside k') = g.arrivals.countP _
  have hnot : (g.put i ⟨n, k, .waiting⟩).isInside k' i = false := by
    simp [isInside]
  rw [List.countP_append, List.countP_singleton, hnot]
  simp only [Bool.false_eq_true, if_false, Nat.add_zero]
  refine (countP_eq_of_same fun x hx => ?_).symm
  have hne : x ≠ i := fun h => hi (h ▸ hx)
  rw [isInside, isInside, put_slip_of_ne hne]

theorem Ok.arrive (hok : Ok cap g) (hi : i ∉ g.arrivals)
    (hn : ∀ j sl, g.slip j = some sl → sl.seq < n) :
    Ok cap { g.put i ⟨n, k, .waiting⟩ with arrivals := g.arrivals ++ [i] } := by
  have hnone : g.slip i = none := by
    cases h : g.slip i with
    | none => rfl
    | some sl => exact absurd ((hok.mem i).mpr (by rw [h]; rfl)) hi
  have hentered : ∀ a ∈ g.entered, a ≠ i := by
    rintro a ha rfl
    obtain ⟨sl, hsl, _⟩ := (hok.entered a).mp ha
    rw [hnone] at hsl
    cases hsl
  exact {
    nodup := by
      refine List.nodup_append.mpr ⟨hok.nodup, List.nodup_singleton i, ?_⟩
      rintro y hy z hz rfl
      exact hi (List.mem_singleton.mp hz ▸ hy)
    mem := by
      intro a
      change a ∈ g.arrivals ++ [i] ↔ ((g.put i _).slip a).isSome
      rw [List.mem_append, List.mem_singleton, put_slip, hok.mem a]
      by_cases ha : a = i <;> simp [ha]
    seq_inj := by
      intro a b sl sl' ha hb hseq
      rcases put_cases ha with ⟨rfl, rfl⟩ | ⟨_, ha'⟩
      · rcases put_cases hb with ⟨rfl, rfl⟩ | ⟨_, hb'⟩
        · rfl
        · have hlt := hn b sl' hb'
          simp only at hseq
          omega
      · rcases put_cases hb with ⟨rfl, rfl⟩ | ⟨_, hb'⟩
        · have hlt := hn a sl ha'
          simp only at hseq
          omega
        · exact hok.seq_inj a b sl sl' ha' hb' hseq
    entered := by
      intro a
      refine (hok.entered a).trans ⟨?_, ?_⟩
      · rintro ⟨sl, hsl, hst⟩
        have hai : a ≠ i := by
          rintro rfl
          rw [hnone] at hsl
          cases hsl
        exact ⟨sl, (put_slip_of_ne hai _).trans hsl, hst⟩
      · rintro ⟨sl, hsl, hst⟩
        rcases put_cases hsl with ⟨_, rfl⟩ | ⟨_, h⟩
        · rcases hst with hst | hst <;> cases hst
        · exact ⟨sl, h, hst⟩
    room := by
      intro k' c hc
      rw [inside_arrive hi]
      exact hok.room k' c hc
    order := by
      refine hok.order.imp_of_mem fun {a b} ha hb h sl sl' hsa hsb hsc => ?_
      rw [put_slip_of_ne (hentered a ha)] at hsa
      rw [put_slip_of_ne (hentered b hb)] at hsb
      exact h sl sl' hsa hsb hsc
    behind := by
      intro a ha b sl sl' hsa hsb hsc hw
      rw [put_slip_of_ne (hentered a ha)] at hsa
      rcases put_cases hsb with ⟨_, rfl⟩ | ⟨_, hsb'⟩
      · exact hn a sl hsa
      · exact hok.behind a ha b sl sl' hsa hsb' hsc hw }

theorem Ok.enter {c : Nat} (hok : Ok cap g) (hi : g.slip i = some ⟨n, k, .waiting⟩)
    (hfirst : ∀ j m, g.slip j = some ⟨m, k, .waiting⟩ → n ≤ m) (hc : cap k = some c)
    (hroom : g.inside k < c) :
    Ok cap { g.put i ⟨n, k, .inside⟩ with entered := g.entered ++ [i] } := by
  have himem : i ∈ g.arrivals := (hok.mem i).mpr (by rw [hi]; rfl)
  have hne : ∀ a ∈ g.entered, a ≠ i := by
    rintro a ha rfl
    obtain ⟨sl, hsl, hst⟩ := (hok.entered a).mp ha
    rw [hi] at hsl
    cases hsl
    rcases hst with hst | hst <;> cases hst
  exact {
    nodup := hok.nodup
    mem := mem_put hok hi _
    seq_inj := seq_inj_put hok hi
    entered := by
      intro a
      change a ∈ g.entered ++ [i] ↔ ∃ sl, (g.put i _).slip a = some sl ∧ _
      rw [List.mem_append, List.mem_singleton]
      by_cases ha : a = i
      · subst ha
        exact ⟨fun _ => ⟨_, put_slip_self _, .inl rfl⟩, fun _ => .inr rfl⟩
      · rw [put_slip_of_ne ha, hok.entered a]
        exact ⟨fun h => h.resolve_right ha, .inl⟩
    room := by
      intro k' c' hc'
      have hput := inside_put hok himem ⟨n, k, .inside⟩ k'
      have hnot : g.isInside k' i = false := by simp [isInside, hi]
      rw [hnot] at hput
      simp only [Bool.false_eq_true, if_false, Nat.add_zero] at hput
      have hroom' := hok.room k' c' hc'
      change (g.put i _).inside k' ≤ c'
      rw [hput]
      by_cases hk : k' = k
      · subst hk
        rw [hc] at hc'
        cases hc'
        split <;> omega
      · have hother : (g.put i ⟨n, k, .inside⟩).isInside k' i = false := by
          simp [isInside, Ne.symm hk]
        rw [hother]
        simpa using hroom'
    order := by
      refine List.pairwise_append.mpr ⟨order_put hok hi, List.pairwise_singleton _ _, ?_⟩
      intro a ha b hb sl sl' hsa hsb hsc
      obtain rfl := List.mem_singleton.mp hb
      rw [put_slip_of_ne (hne a ha)] at hsa
      rw [put_slip_self] at hsb
      cases hsb
      exact hok.behind a ha b sl ⟨n, k, .waiting⟩ hsa hi hsc rfl
    behind := by
      intro a ha b sl sl' hsa hsb hsc hw
      rcases put_cases hsb with ⟨_, rfl⟩ | ⟨hb, hsb'⟩
      · cases hw
      · rcases List.mem_append.mp ha with ha | ha
        · rw [put_slip_of_ne (hne a ha)] at hsa
          exact hok.behind a ha b sl sl' hsa hsb' hsc hw
        · obtain rfl := List.mem_singleton.mp ha
          rw [put_slip_self] at hsa
          cases hsa
          obtain ⟨m, k', st⟩ := sl'
          simp only at hsc hw ⊢
          subst hsc hw
          -- the first in line, and not `b`
          have hle := hfirst b m hsb'
          have hneq : n ≠ m := fun h => hb (hok.seq_inj b a _ _ hsb' hi h.symm)
          omega }

/-- A participant that stops waiting, or goes out. -/
theorem Ok.depart (hok : Ok cap g) {st st' : Standing} (hi : g.slip i = some ⟨n, k, st⟩)
    (hst : st = .waiting ∧ st' = .left ∨ st = .inside ∧ st' = .out) :
    Ok cap (g.put i ⟨n, k, st'⟩) := by
  have himem : i ∈ g.arrivals := (hok.mem i).mpr (by rw [hi]; rfl)
  exact {
    nodup := hok.nodup
    mem := mem_put hok hi _
    seq_inj := seq_inj_put hok hi
    entered := by
      intro a
      refine (hok.entered a).trans ?_
      by_cases ha : a = i
      · subst ha
        rw [put_slip_self, hi]
        rcases hst with ⟨rfl, rfl⟩ | ⟨rfl, rfl⟩ <;> simp
      · rw [put_slip_of_ne ha]
    room := by
      intro k' c hc
      have hput := inside_put hok himem ⟨n, k, st'⟩ k'
      have hnot : (g.put i ⟨n, k, st'⟩).isInside k' i = false := by
        rcases hst with ⟨_, rfl⟩ | ⟨_, rfl⟩ <;> simp [isInside]
      rw [hnot] at hput
      have hroom := hok.room k' c hc
      simp only [Bool.false_eq_true, if_false, Nat.add_zero] at hput
      omega
    order := order_put hok hi
    behind := by
      intro a ha b sl sl' hsa hsb hsc hw
      rcases put_cases hsb with ⟨_, rfl⟩ | ⟨_, hsb'⟩
      · rcases hst with ⟨_, rfl⟩ | ⟨_, rfl⟩ <;> cases hw
      · rcases put_cases hsa with ⟨rfl, rfl⟩ | ⟨_, hsa'⟩
        · exact hok.behind a ha b ⟨n, k, st⟩ sl' hi hsb' hsc hw
        · exact hok.behind a ha b sl sl' hsa' hsb' hsc hw }

/-- **Every step keeps the gate in order.** -/
theorem Step.ok (h : Step cap g g') (hok : Ok cap g) : Ok cap g' := by
  cases h with
  | arrive hi hn => exact hok.arrive hi hn
  | enter hi hfirst hc hroom => exact hok.enter hi hfirst hc hroom
  | leave hi => exact hok.depart hi (.inl ⟨rfl, rfl⟩)
  | exit hi => exact hok.depart hi (.inr ⟨rfl, rfl⟩)

end Gate

end FilePeeker
