import Mathlib.Tactic.IntervalCases
import Mathlib.Tactic.SplitIfs

/-!
# The Gregorian calendar

A date of the proleptic Gregorian calendar, and its day number, which counts from the
first of January 1970.  The number is defined by the lengths of the years and the
months; `Date.number_next` and `Date.number_injective` say that it counts days.

`Date.number_march` counts from the first of March instead, so that the leap day is the
last day of its year, and a month starts where a straight line says.
-/

namespace FilePeeker.Calendar

def IsLeap (year : Int) : Prop := 4 ∣ year ∧ (¬ 100 ∣ year ∨ 400 ∣ year)

instance (year : Int) : Decidable (IsLeap year) := inferInstanceAs (Decidable (_ ∧ _))

def yearLength (year : Int) : Nat := if IsLeap year then 366 else 365

def monthLength (year : Int) : Nat → Nat
  | 2 => if IsLeap year then 29 else 28
  | 4 | 6 | 9 | 11 => 30
  | 1 | 3 | 5 | 7 | 8 | 10 | 12 => 31
  | _ => 0

/-- The days of a year that come before a month of it. -/
def daysBeforeMonth (year : Int) : Nat → Nat
  | 0 => 0
  | month + 1 => daysBeforeMonth year month + monthLength year month

/-- The leap days between the first years of the count and a year. -/
def leapDaysBefore (year : Int) : Int := (year - 1) / 4 - (year - 1) / 100 + (year - 1) / 400

/-- The days from 1970 up to a year. -/
def daysBeforeYear (year : Int) : Int :=
  365 * (year - 1970) + (leapDaysBefore year - leapDaysBefore 1970)

@[ext] structure Date where
  year : Int
  month : Nat
  day : Nat
  month_mem : 1 ≤ month ∧ month ≤ 12
  day_mem : 1 ≤ day ∧ day ≤ monthLength year month
deriving DecidableEq

namespace Date

/-- How many days after the first of January 1970. -/
def number (date : Date) : Int :=
  daysBeforeYear date.year + daysBeforeMonth date.year date.month + (date.day - 1)

end Date

variable {year year' : Int} {month month' : Nat}

/-! ### Years and months -/

theorem leapDaysBefore_succ (year : Int) : leapDaysBefore (year + 1) =
    leapDaysBefore year + if IsLeap year then 1 else 0 := by
  unfold leapDaysBefore
  split_ifs with h
  · unfold IsLeap at h
    omega
  · unfold IsLeap at h
    omega

theorem daysBeforeYear_succ (year : Int) :
    daysBeforeYear (year + 1) = daysBeforeYear year + yearLength year := by
  unfold daysBeforeYear yearLength
  rw [leapDaysBefore_succ]
  split_ifs <;> omega

theorem daysBeforeYear_le (h : year ≤ year') : daysBeforeYear year ≤ daysBeforeYear year' := by
  obtain ⟨n, rfl⟩ : ∃ n : Nat, year' = year + n := ⟨(year' - year).toNat, by omega⟩
  clear h
  induction n with
  | zero => simp
  | succ n ih =>
      have hstep := daysBeforeYear_succ (year + n)
      rw [show year + ((n + 1 : Nat) : Int) = year + n + 1 by omega]
      omega

theorem daysBeforeMonth_le (h : month ≤ month') :
    daysBeforeMonth year month ≤ daysBeforeMonth year month' := by
  induction h with
  | refl => exact Nat.le_refl _
  | step _ ih => exact Nat.le_trans ih (Nat.le_add_right _ _)

theorem daysBeforeMonth_thirteen (year : Int) : daysBeforeMonth year 13 = yearLength year := by
  unfold yearLength
  split_ifs with h <;> simp [daysBeforeMonth, monthLength, h]

theorem monthLength_pos (h : 1 ≤ month ∧ month ≤ 12) : 1 ≤ monthLength year month := by
  obtain ⟨hpos, hle⟩ := h
  interval_cases month <;> simp [monthLength]
  split_ifs <;> omega

theorem monthLength_le (year : Int) (month : Nat) : monthLength year month ≤ 31 := by
  unfold monthLength
  split
  · split_ifs <;> omega
  all_goals omega

/-! ### Every day has one number -/

namespace Date

variable {date date' : Date}

/-- The day after. -/
def next (date : Date) : Date :=
  if hday : date.day < monthLength date.year date.month then
    { date with
      day := date.day + 1
      day_mem := ⟨Nat.le_add_left 1 _, hday⟩ }
  else if hmonth : date.month < 12 then
    have hmem : 1 ≤ date.month + 1 ∧ date.month + 1 ≤ 12 := ⟨Nat.le_add_left 1 _, hmonth⟩
    { year := date.year
      month := date.month + 1
      day := 1
      month_mem := hmem
      day_mem := ⟨Nat.le_refl 1, monthLength_pos hmem⟩ }
  else
    have hmem : 1 ≤ 1 ∧ 1 ≤ 12 := ⟨Nat.le_refl 1, Nat.le_add_left 1 11⟩
    { year := date.year + 1
      month := 1
      day := 1
      month_mem := hmem
      day_mem := ⟨Nat.le_refl 1, monthLength_pos hmem⟩ }

theorem number_next (date : Date) : date.next.number = date.number + 1 := by
  have hmonth := date.month_mem
  have hday := date.day_mem
  unfold next
  split
  · simp only [number]
    omega
  · split
    · simp only [number, daysBeforeMonth]
      omega
    · have htwelve : date.month = 12 := by omega
      have hyear := daysBeforeMonth_thirteen date.year
      rw [daysBeforeMonth] at hyear
      simp only [number, daysBeforeYear_succ, htwelve] at *
      show _ + (daysBeforeMonth _ 1 : Int) + _ = _
      rw [show daysBeforeMonth (date.year + 1) 1 = 0 from rfl]
      omega

theorem number_mem_month (date : Date) :
    daysBeforeYear date.year + daysBeforeMonth date.year date.month ≤ date.number ∧
      date.number < daysBeforeYear date.year + daysBeforeMonth date.year (date.month + 1) := by
  have hday := date.day_mem
  rw [number, daysBeforeMonth]
  omega

theorem number_mem_year (date : Date) : daysBeforeYear date.year ≤ date.number ∧
    date.number < daysBeforeYear (date.year + 1) := by
  have hmonth := date.number_mem_month
  have hlast : daysBeforeMonth date.year (date.month + 1) ≤ yearLength date.year :=
    daysBeforeMonth_thirteen date.year ▸ daysBeforeMonth_le (by have := date.month_mem; omega)
  rw [daysBeforeYear_succ]
  omega

theorem year_le_of_number_le (h : date.number ≤ date'.number) : date.year ≤ date'.year := by
  by_contra hlt
  have hyears := daysBeforeYear_le (show date'.year + 1 ≤ date.year by omega)
  have := date.number_mem_year
  have := date'.number_mem_year
  omega

theorem month_le_of_number_le (hyear : date.year = date'.year)
    (h : date.number ≤ date'.number) : date.month ≤ date'.month := by
  by_contra hlt
  have hmonths : daysBeforeMonth date.year (date'.month + 1) ≤
      daysBeforeMonth date.year date.month := daysBeforeMonth_le (by omega)
  have := date.number_mem_month
  have := date'.number_mem_month
  rw [hyear] at *
  omega

/-- **No two days have one number.** -/
theorem number_injective : ∀ {date date' : Date}, date.number = date'.number → date = date' := by
  intro date date' h
  have hyear : date.year = date'.year :=
    Int.le_antisymm (year_le_of_number_le h.le) (year_le_of_number_le h.ge)
  have hmonth : date.month = date'.month :=
    Nat.le_antisymm (month_le_of_number_le hyear h.le) (month_le_of_number_le hyear.symm h.ge)
  refine Date.ext hyear hmonth ?_
  rw [number, number, hyear, hmonth] at h
  omega

end Date

/-! ### Counted from March -/

/-- The day number of the first of March of a year. -/
def marchStart (year : Int) : Int := 365 * year + year / 4 - year / 100 + year / 400 - 719468

/-- How many days after the first of March a month starts, the first of them March. -/
def marchMonth (month : Int) : Int := (153 * month + 2) / 5

theorem marchStart_eq (year : Int) :
    marchStart year = daysBeforeYear year + (yearLength year - 306) := by
  have hnext : leapDaysBefore (year + 1) = year / 4 - year / 100 + year / 400 := by
    rw [leapDaysBefore, Int.add_sub_cancel]
  have hfirst : leapDaysBefore 1970 = 477 := by decide
  rw [leapDaysBefore_succ] at hnext
  unfold marchStart daysBeforeYear yearLength
  split_ifs at hnext ⊢ <;> omega

/-- The months from March on. -/
theorem daysBeforeMonth_march (h : 3 ≤ month ∧ month ≤ 12) :
    (daysBeforeMonth year month : Int) = yearLength year - 306 + marchMonth (month - 3) := by
  obtain ⟨hle, hle'⟩ := h
  unfold yearLength marchMonth
  interval_cases month <;> split_ifs with hleap <;> simp [daysBeforeMonth, monthLength, hleap]

/-- January and February belong to the year before. -/
theorem daysBeforeMonth_january (h : 1 ≤ month ∧ month ≤ 2) :
    (daysBeforeMonth year month : Int) = marchMonth (month + 9) - 306 := by
  obtain ⟨hle, hle'⟩ := h
  interval_cases month
  · rfl
  · rfl

theorem Date.number_march (date : Date) : date.number =
    if 3 ≤ date.month then marchStart date.year + marchMonth (date.month - 3) + (date.day - 1)
    else marchStart (date.year - 1) + marchMonth (date.month + 9) + (date.day - 1) := by
  have hmem := date.month_mem
  have hyear := daysBeforeYear_succ (date.year - 1)
  rw [Int.sub_add_cancel] at hyear
  rw [number, marchStart_eq, marchStart_eq]
  split
  · next h =>
    rw [daysBeforeMonth_march ⟨h, hmem.2⟩]
    omega
  · next h =>
    rw [daysBeforeMonth_january ⟨hmem.1, by omega⟩, hyear]
    omega

/-- How long a month is, in a year that starts in March. -/
theorem monthLength_march (year : Int) (h : 3 ≤ month ∧ month ≤ 12) :
    (monthLength year month : Int) = marchMonth (month - 3 + 1) - marchMonth (month - 3) := by
  obtain ⟨hle, hle'⟩ := h
  interval_cases month <;> rfl

theorem monthLength_january :
    (monthLength year 1 : Int) = marchMonth 11 - marchMonth 10 := rfl

theorem monthLength_february :
    (monthLength year 2 : Int) = yearLength year - marchMonth 11 := by
  unfold yearLength monthLength
  split_ifs <;> rfl

end FilePeeker.Calendar
