/-!
# Arithmetic that may overflow

`Checked lo hi` is an integer of the range from `lo` to `hi` as a program computes with
it.  An operation whose result is out of the range, or that divides by zero, gives no
value, and nothing computed from it has one.

`fit` is the value of an integer, where it has one.  Each operation has a rule for `fit`
that asks for its operands to be in the range, so a computation is followed from the
inside out, by `simp` with a discharger for the bounds.
-/

namespace FilePeeker

@[ext] structure Checked (lo hi : Int) where
  value : Option Int
  inRange : ∀ n, value = some n → lo ≤ n ∧ n ≤ hi
deriving DecidableEq

namespace Checked

variable {lo hi : Int}

def overflow : Checked lo hi := ⟨none, nofun⟩

/-- An integer, where it is in the range. -/
def fit (n : Int) : Checked lo hi :=
  if h : lo ≤ n ∧ n ≤ hi then ⟨some n, fun _ hn => Option.some.inj hn ▸ h⟩ else overflow

def map (f : Int → Checked lo hi) (a : Checked lo hi) : Checked lo hi :=
  match a.value with
  | none => overflow
  | some a => f a

def map₂ (f : Int → Int → Checked lo hi) (a b : Checked lo hi) : Checked lo hi :=
  a.map fun a => b.map (f a)

/-- An operation that divides, which needs something to divide by. -/
def divide (f : Int → Int → Int) (a b : Int) : Checked lo hi :=
  if b = 0 then overflow else fit (f a b)

instance : Add (Checked lo hi) := ⟨map₂ fun a b => fit (a + b)⟩
instance : Sub (Checked lo hi) := ⟨map₂ fun a b => fit (a - b)⟩
instance : Mul (Checked lo hi) := ⟨map₂ fun a b => fit (a * b)⟩
instance : Div (Checked lo hi) := ⟨map₂ (divide Int.tdiv)⟩
instance : Mod (Checked lo hi) := ⟨map₂ (divide Int.tmod)⟩
instance : Neg (Checked lo hi) := ⟨map fun a => fit (-a)⟩
instance (n : Nat) : OfNat (Checked lo hi) n := ⟨fit (OfNat.ofNat n)⟩

/-- `div_euclid`. -/
def divEuclid (a b : Checked lo hi) : Checked lo hi := map₂ (divide (· / ·)) a b

/-- `rem_euclid`. -/
def remEuclid (a b : Checked lo hi) : Checked lo hi := map₂ (divide (· % ·)) a b

variable {n a b : Int}

theorem value_fit (h : lo ≤ n ∧ n ≤ hi) : (fit n : Checked lo hi).value = some n := by
  rw [fit, dif_pos h]

theorem ofNat_eq_fit (n : Nat) :
    (OfNat.ofNat n : Checked lo hi) = fit (OfNat.ofNat n) := rfl

theorem map_fit (f : Int → Checked lo hi) (h : lo ≤ n ∧ n ≤ hi) : (fit n).map f = f n := by
  rw [map, value_fit h]

theorem map₂_fit (f : Int → Int → Checked lo hi) (ha : lo ≤ a ∧ a ≤ hi) (hb : lo ≤ b ∧ b ≤ hi) :
    map₂ f (fit a) (fit b) = f a b := by
  rw [map₂, map_fit _ ha, map_fit _ hb]

theorem divide_eq (f : Int → Int → Int) (hb : b ≠ 0) :
    (divide f a b : Checked lo hi) = fit (f a b) := if_neg hb

theorem fit_add (ha : lo ≤ a ∧ a ≤ hi) (hb : lo ≤ b ∧ b ≤ hi) :
    (fit a + fit b : Checked lo hi) = fit (a + b) := map₂_fit _ ha hb

theorem fit_sub (ha : lo ≤ a ∧ a ≤ hi) (hb : lo ≤ b ∧ b ≤ hi) :
    (fit a - fit b : Checked lo hi) = fit (a - b) := map₂_fit _ ha hb

theorem fit_mul (ha : lo ≤ a ∧ a ≤ hi) (hb : lo ≤ b ∧ b ≤ hi) :
    (fit a * fit b : Checked lo hi) = fit (a * b) := map₂_fit _ ha hb

theorem fit_neg (ha : lo ≤ a ∧ a ≤ hi) : (-fit a : Checked lo hi) = fit (-a) := map_fit _ ha

/-- A division that truncates rounds down where nothing is negative. -/
theorem fit_div (ha : lo ≤ a ∧ a ≤ hi) (hb : lo ≤ b ∧ b ≤ hi) (hpos : 0 ≤ a) (hne : b ≠ 0) :
    (fit a / fit b : Checked lo hi) = fit (a / b) := by
  rw [← Int.tdiv_eq_ediv_of_nonneg hpos]
  exact (map₂_fit _ ha hb).trans (divide_eq _ hne)

theorem fit_mod (ha : lo ≤ a ∧ a ≤ hi) (hb : lo ≤ b ∧ b ≤ hi) (hpos : 0 ≤ a) (hne : b ≠ 0) :
    (fit a % fit b : Checked lo hi) = fit (a % b) := by
  rw [← Int.tmod_eq_emod_of_nonneg hpos]
  exact (map₂_fit _ ha hb).trans (divide_eq _ hne)

theorem fit_divEuclid (ha : lo ≤ a ∧ a ≤ hi) (hb : lo ≤ b ∧ b ≤ hi) (hne : b ≠ 0) :
    (divEuclid (fit a) (fit b) : Checked lo hi) = fit (a / b) :=
  (map₂_fit _ ha hb).trans (divide_eq _ hne)

theorem fit_remEuclid (ha : lo ≤ a ∧ a ≤ hi) (hb : lo ≤ b ∧ b ≤ hi) (hne : b ≠ 0) :
    (remEuclid (fit a) (fit b) : Checked lo hi) = fit (a % b) :=
  (map₂_fit _ ha hb).trans (divide_eq _ hne)

end Checked

end FilePeeker
