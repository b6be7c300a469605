import FilePeeker.Lib.Calendar
import FilePeeker.Lib.Checked
import FilePeeker.Wire.Entries

/-!
# How a modification time reads on screen

`format_modified` of `browser/value.rs` gives the date and the minute of a time, in UTC.
Its calendar is Hinnant's: a year starts in March, and an era of four hundred years has
`146_097` days.

What is shown is a minute.  It is not always the one the time is in: a time before 1970
is held as how long before it was, and what is left of a second is dropped from that, so
the last fraction of a second of a minute is shown as the next minute
(`formatModified_minute`).
-/

namespace FilePeeker.Browser

open Calendar Wire

/-- An `i64` the code computes with. -/
abbrev I64 := Checked (-maxI64 - 1) maxI64

/-- `u32::try_from(..).unwrap_or(1)`. -/
def toU32 (n : Int) : Nat := if 0 ≤ n ∧ n ≤ 4294967295 then n.toNat else 1

/-- Splits a count of days since 1970-01-01 into a civil year, month and day. -/
def civilFromDays (days : I64) : Option (Int × Nat × Nat) := do
  -- Re-based on 0000-03-01, which is 719_468 days before the epoch.
  let shifted := days + 719468
  let era := shifted.divEuclid 146097
  let dayOfEra := shifted.remEuclid 146097
  let yearOfEra :=
    (dayOfEra - dayOfEra / 1460 + dayOfEra / 36524 - dayOfEra / 146096) / 365
  let dayOfYear := dayOfEra - (365 * yearOfEra + yearOfEra / 4 - yearOfEra / 100)
  let shiftedMonth := (5 * dayOfYear + 2) / 153
  let day := toU32 (← (dayOfYear - (153 * shiftedMonth + 2) / 5 + 1).value)
  let shifted ← shiftedMonth.value
  let month := toU32 (← (if shifted < 10 then shiftedMonth + 3 else shiftedMonth - 9).value)
  let year ← (yearOfEra + era * 400 + if month ≤ 2 then 1 else 0).value
  return (year, month, day)

/-- How `format_modified` counts the seconds since 1970. -/
def secondsOf (time : Timespec) : I64 :=
  match time.sinceEpoch with
  | .ok since => .fit (toI64 since.secs)
  | .error before => -.fit (toI64 before.secs)

/-- And the days. -/
def daysOf (time : Timespec) : I64 := (secondsOf time).divEuclid 86400

/-- `{n:0width}`: the sign counts. -/
def padded (width : Nat) (n : Int) : List Char :=
  let sign := if n < 0 then ['-'] else []
  let digits := Nat.toDigits 10 n.natAbs
  sign ++ List.replicate (width - sign.length - digits.length) '0' ++ digits

/-- `{year:04}-{month:02}-{day:02} {hour:02}:{minute:02}`. -/
def stamp (year : Int) (month day : Nat) (hour minute : Int) : List Char :=
  padded 4 year ++ '-' :: padded 2 month ++ '-' :: padded 2 day ++
    ' ' :: padded 2 hour ++ ':' :: padded 2 minute

/-- A modification time as `YYYY-MM-DD HH:MM`. -/
def formatModified (time : Timespec) : Option (List Char) := do
  let withinDay := (secondsOf time).remEuclid 86400
  let (year, month, day) ← civilFromDays (daysOf time)
  let hour ← (withinDay / 3600).value
  let minute ← (withinDay % 3600 / 60).value
  return stamp year month day hour minute

/-! ### The calendar -/

variable {d e : Int}

/-- A day of an era, by the century, the four years and the year it is in: only the last
century and the last year of each are longer. -/
theorem era_split (h : 0 ≤ d ∧ d < 146097) : ∃ c q r doy : Int,
    d = 36524 * c + 1461 * q + 365 * r + doy ∧ (0 ≤ c ∧ c ≤ 3) ∧ (0 ≤ q ∧ q ≤ 24) ∧
      (0 ≤ r ∧ r ≤ 3) ∧ (0 ≤ doy ∧ doy ≤ 365) ∧ (doy = 365 → r = 3 ∧ (q < 24 ∨ c = 3)) := by
  obtain ⟨c, hc, hcle, hclt⟩ : ∃ c, (0 ≤ c ∧ c ≤ 3) ∧ 36524 * c ≤ d ∧
      (d < 36524 * (c + 1) ∨ c = 3) := ⟨min 3 (d / 36524), by omega⟩
  obtain ⟨q, hq, hqle, hqlt⟩ : ∃ q, (0 ≤ q ∧ q ≤ 24) ∧ 36524 * c + 1461 * q ≤ d ∧
      d < 36524 * c + 1461 * (q + 1) := ⟨(d - 36524 * c) / 1461, by omega⟩
  obtain ⟨r, hr, hrle, hrlt⟩ : ∃ r, (0 ≤ r ∧ r ≤ 3) ∧ 36524 * c + 1461 * q + 365 * r ≤ d ∧
      (d < 36524 * c + 1461 * q + 365 * (r + 1) ∨ r = 3) :=
    ⟨min 3 ((d - 36524 * c - 1461 * q) / 365), by omega⟩
  refine ⟨c, q, r, d - 36524 * c - 1461 * q - 365 * r, by omega, hc, hq, hr, by omega, ?_⟩
  intro hlast
  rcases hrlt with hrlt | hrlt
  · omega
  refine ⟨hrlt, ?_⟩
  rcases hclt with hclt | hclt
  · omega
  · exact .inr hclt

/-- **The year of a day of an era.**  The three divisions take away one day for each
leap day that came before. -/
theorem yearOfEra_eq {c q r doy : Int} (hd : d = 36524 * c + 1461 * q + 365 * r + doy)
    (hc : 0 ≤ c ∧ c ≤ 3) (hq : 0 ≤ q ∧ q ≤ 24) (hr : 0 ≤ r ∧ r ≤ 3) (hdoy : 0 ≤ doy ∧ doy ≤ 365)
    (hleap : doy = 365 → r = 3 ∧ (q < 24 ∨ c = 3)) :
    (d - d / 1460 + d / 36524 - d / 146096) / 365 = 100 * c + 4 * q + r := by
  have hcentury : d / 36524 - d / 146096 = c := by
    obtain ⟨x, hx⟩ : ∃ x, x = 1461 * q + 365 * r + doy := ⟨_, rfl⟩
    have hlt : 0 ≤ x ∧ (x ≤ 36523 ∨ x = 36524 ∧ c = 3) := by omega
    obtain rfl : d = 36524 * c + x := by omega
    clear hd hx
    rcases hlt with ⟨hx, hlt | ⟨rfl, rfl⟩⟩
    · omega
    · rfl
  obtain ⟨past, hpast⟩ : ∃ past, past = (24 * c + q + 365 * r + doy) / 1460 := ⟨_, rfl⟩
  have hfours : d / 1460 = 25 * c + q + past := by omega
  have hyear : 0 ≤ doy - past ∧ doy - past ≤ 364 := by
    clear hcentury hfours hd
    by_cases hlast : doy = 365
    · obtain ⟨rfl, -⟩ := hleap hlast
      omega
    · clear hleap
      omega
  have hsum : d - d / 1460 + d / 36524 - d / 146096 =
      365 * (100 * c + 4 * q + r) + (doy - past) := by
    rw [Int.add_sub_assoc, hcentury, hfours]
    clear hpast hfours hcentury
    omega
  rw [hsum]
  clear hsum hpast hfours hcentury
  omega

/-- What an era's day is in the year that starts in March. -/
theorem era_day (h : 0 ≤ d ∧ d < 146097) : ∃ year doy : Int,
    (d - d / 1460 + d / 36524 - d / 146096) / 365 = year ∧ (0 ≤ year ∧ year ≤ 399) ∧
      d - (365 * year + year / 4 - year / 100) = doy ∧ (0 ≤ doy ∧ doy ≤ 365) ∧
      (doy = 365 → IsLeap (year + 1)) := by
  obtain ⟨c, q, r, doy, hd, hc, hq, hr, hdoy, hleap⟩ := era_split h
  have hfours : (100 * c + 4 * q + r) / 4 = 25 * c + q := by omega
  have hcentury : (100 * c + 4 * q + r) / 100 = c := by omega
  refine ⟨100 * c + 4 * q + r, doy, yearOfEra_eq hd hc hq hr hdoy hleap, by omega, by omega,
    hdoy, fun hlast => ?_⟩
  unfold IsLeap
  omega

/-! ### Without overflow

Each step of `civil_from_days`, on operands that its result fits. -/

theorem yearOfEra_fit (h : 0 ≤ d ∧ d < 146097) :
    ((.fit d - .fit d / 1460 + .fit d / 36524 - .fit d / 146096) / 365 : I64) =
      .fit ((d - d / 1460 + d / 36524 - d / 146096) / 365) := by
  have hmax : maxI64 = 9223372036854775807 := rfl
  simp (disch := omega) only [Checked.ofNat_eq_fit, Checked.fit_add, Checked.fit_div,
    Checked.fit_sub]

theorem dayOfYear_fit {year : Int} (h : 0 ≤ d ∧ d < 146097) (hyear : 0 ≤ year ∧ year ≤ 399) :
    (.fit d - (365 * .fit year + .fit year / 4 - .fit year / 100) : I64) =
      .fit (d - (365 * year + year / 4 - year / 100)) := by
  have hmax : maxI64 = 9223372036854775807 := rfl
  simp (disch := omega) only [Checked.ofNat_eq_fit, Checked.fit_add, Checked.fit_div,
    Checked.fit_sub, Checked.fit_mul]

theorem shiftedMonth_fit {doy : Int} (h : 0 ≤ doy ∧ doy ≤ 365) :
    ((5 * .fit doy + 2) / 153 : I64) = .fit ((5 * doy + 2) / 153) := by
  have hmax : maxI64 = 9223372036854775807 := rfl
  simp (disch := omega) only [Checked.ofNat_eq_fit, Checked.fit_add, Checked.fit_div,
    Checked.fit_mul]

theorem day_fit {doy month : Int} (h : 0 ≤ doy ∧ doy ≤ 365) (hmonth : 0 ≤ month ∧ month ≤ 11) :
    (.fit doy - (153 * .fit month + 2) / 5 + 1 : I64) =
      .fit (doy - marchMonth month + 1) := by
  have hmax : maxI64 = 9223372036854775807 := rfl
  simp (disch := omega) only [Checked.ofNat_eq_fit, Checked.fit_add, Checked.fit_div,
    Checked.fit_sub, Checked.fit_mul, marchMonth]

theorem month_fit {month : Int} (hmonth : 0 ≤ month ∧ month ≤ 11) :
    ((if month < 10 then .fit month + 3 else .fit month - 9 : I64)).value =
      some (if month < 10 then month + 3 else month - 9) := by
  have hmax : maxI64 = 9223372036854775807 := rfl
  split <;> simp (disch := omega) only [Checked.ofNat_eq_fit, Checked.fit_add, Checked.fit_sub,
    Checked.value_fit]

theorem year_fit {year era : Int} (h : 0 ≤ year ∧ year ≤ 399)
    (hera : -maxI64 ≤ era * 800 ∧ era * 800 ≤ maxI64) (p : Prop) [Decidable p] :
    (.fit year + .fit era * 400 + if p then 1 else 0 : I64).value =
      some (year + era * 400 + if p then 1 else 0) := by
  have hmax : maxI64 = 9223372036854775807 := rfl
  split <;> simp (disch := omega) only [Checked.ofNat_eq_fit, Checked.fit_add, Checked.fit_mul,
    Checked.value_fit]

theorem civilFromDays_fit (hd : -maxI64 ≤ d * 800 ∧ d * 800 ≤ maxI64) {year doy : Int}
    (hyear : ((d + 719468) % 146097 - (d + 719468) % 146097 / 1460 +
      (d + 719468) % 146097 / 36524 - (d + 719468) % 146097 / 146096) / 365 = year)
    (hle : 0 ≤ year ∧ year ≤ 399)
    (hdoy : (d + 719468) % 146097 - (365 * year + year / 4 - year / 100) = doy)
    (hdoyle : 0 ≤ doy ∧ doy ≤ 365) :
    civilFromDays (.fit d) =
      let shifted := (5 * doy + 2) / 153
      let month := toU32 (if shifted < 10 then shifted + 3 else shifted - 9)
      some (year + (d + 719468) / 146097 * 400 + (if month ≤ 2 then 1 else 0), month,
        toU32 (doy - marchMonth shifted + 1)) := by
  have hmax : maxI64 = 9223372036854775807 := rfl
  have hshift : (.fit d + 719468 : I64) = .fit (d + 719468) :=
    Checked.fit_add (by omega) (by omega)
  have hera : (Checked.fit (d + 719468) : I64).divEuclid 146097 = .fit ((d + 719468) / 146097) :=
    Checked.fit_divEuclid (by omega) (by omega) (by omega)
  have hdoe : (Checked.fit (d + 719468) : I64).remEuclid 146097 = .fit ((d + 719468) % 146097) :=
    Checked.fit_remEuclid (by omega) (by omega) (by omega)
  have hmonth : 0 ≤ (5 * doy + 2) / 153 ∧ (5 * doy + 2) / 153 ≤ 11 := by omega
  have hmem : 0 ≤ (d + 719468) % 146097 ∧ (d + 719468) % 146097 < 146097 := by omega
  unfold civilFromDays
  simp only [hshift, hera, hdoe, yearOfEra_fit hmem, hyear, dayOfYear_fit hmem hle, hdoy,
    shiftedMonth_fit hdoyle, day_fit hdoyle hmonth]
  rw [Checked.value_fit (by unfold marchMonth; omega), Checked.value_fit (by omega)]
  simp only [Option.bind_eq_bind, Option.bind_some, month_fit hmonth]
  rw [year_fit hle (by omega)]
  rfl

/-! ### Every day its date -/

theorem marchStart_era {year era : Int} (h : 0 ≤ year ∧ year ≤ 399) :
    marchStart (year + era * 400) =
      146097 * era + (365 * year + year / 4 - year / 100) - 719468 := by
  unfold marchStart
  omega

theorem toU32_eq {n : Int} (h : 0 ≤ n ∧ n ≤ 4294967295) : (toU32 n : Int) = n := by
  rw [toU32, if_pos h]
  omega

/-- The date of a day of a year that starts in March. -/
theorem exists_date {year doy : Int} (hdoy : 0 ≤ doy ∧ doy < yearLength (year + 1)) :
    ∃ date : Date, date.number = marchStart year + doy ∧
      let shifted := (5 * doy + 2) / 153
      let month := toU32 (if shifted < 10 then shifted + 3 else shifted - 9)
      date.month = month ∧ date.day = toU32 (doy - marchMonth shifted + 1) ∧
        date.year = year + if month ≤ 2 then 1 else 0 := by
  obtain ⟨shifted, hshifted⟩ : ∃ shifted, shifted = (5 * doy + 2) / 153 := ⟨_, rfl⟩
  have hlong : yearLength (year + 1) ≤ 366 := by
    unfold yearLength
    split_ifs <;> omega
  have hmem : 0 ≤ shifted ∧ shifted ≤ 11 := by omega
  have hstart : 0 ≤ marchMonth shifted ∧ marchMonth shifted ≤ doy := by
    unfold marchMonth
    omega
  have hend : doy < marchMonth (shifted + 1) := by
    unfold marchMonth
    omega
  have hday := toU32_eq (show 0 ≤ doy - marchMonth shifted + 1 ∧ _ by omega)
  simp only [← hshifted]
  generalize toU32 (doy - marchMonth shifted + 1) = day at hday ⊢
  by_cases hmarch : shifted < 10
  · have hmonth := toU32_eq (show 0 ≤ shifted + 3 ∧ _ by omega)
    simp only [if_pos hmarch]
    generalize toU32 (shifted + 3) = month at hmonth ⊢
    have hlength := monthLength_march year (show 3 ≤ month ∧ month ≤ 12 by omega)
    rw [hmonth, Int.add_sub_cancel] at hlength
    refine ⟨⟨year, month, day, by omega, by omega⟩, ?_, rfl, rfl, ?_⟩
    · rw [Date.number_march]
      simp only [hmonth, hday, Int.add_sub_cancel]
      rw [if_pos (by omega)]
      omega
    · simp only
      rw [if_neg (by omega), Int.add_zero]
  · have hmonth := toU32_eq (show 0 ≤ shifted - 9 ∧ _ by omega)
    simp only [if_neg hmarch]
    generalize toU32 (shifted - 9) = month at hmonth ⊢
    have hlength : doy - marchMonth shifted < monthLength (year + 1) month := by
      obtain rfl | rfl : month = 1 ∨ month = 2 := by omega
      · obtain rfl : shifted = 10 := by omega
        have hend : doy < marchMonth 11 := hend
        rw [monthLength_january]
        omega
      · obtain rfl : shifted = 11 := by omega
        rw [monthLength_february]
        omega
    refine ⟨⟨year + 1, month, day, by omega, by omega⟩, ?_, rfl, rfl, ?_⟩
    · rw [Date.number_march]
      simp only [hmonth, hday, Int.sub_add_cancel]
      rw [if_neg (by omega), Int.add_sub_cancel]
      omega
    · simp only
      rw [if_pos (by omega)]

/-- **The date of a day count.** -/
theorem civilFromDays_date (hd : -maxI64 ≤ d * 800 ∧ d * 800 ≤ maxI64) : ∃ date : Date,
    civilFromDays (.fit d) = some (date.year, date.month, date.day) ∧ date.number = d := by
  obtain ⟨year, doy, hyear, hle, hdoy, hdoyle, hleap⟩ :=
    era_day (show 0 ≤ (d + 719468) % 146097 ∧ (d + 719468) % 146097 < 146097 by omega)
  rw [civilFromDays_fit hd hyear hle hdoy hdoyle]
  have hlength : doy < yearLength (year + (d + 719468) / 146097 * 400 + 1) := by
    unfold yearLength
    split_ifs with h
    · omega
    · have : doy ≠ 365 := fun hlast => h (by
        have hlast := hleap hlast
        unfold IsLeap at hlast ⊢
        omega)
      omega
  obtain ⟨date, hnumber, hmonth, hday, hyear'⟩ := exists_date ⟨hdoyle.1, hlength⟩
  refine ⟨date, ?_, ?_⟩
  · simp only [hmonth, hday, hyear']
  · rw [hnumber, marchStart_era hle]
    omega

/-! ### From a time to its days -/

/-- The second whose minute is shown.  Before 1970 the one that is not over is taken to
be, for what is left of it is dropped from the distance to 1970. -/
def shownSecond (time : Timespec) : Int :=
  if 0 ≤ time.sec ∨ time.nsec = 0 ∧ time ≠ .earliest then time.sec else time.sec + 1

theorem secondsOf_eq (time : Timespec) : secondsOf time = .fit (shownSecond time) ∧
    -maxI64 ≤ shownSecond time ∧ shownSecond time ≤ maxI64 := by
  have hmax : maxI64 = 9223372036854775807 := rfl
  have hlow := time.inRange.1
  have hhigh := time.inRange.2
  unfold secondsOf shownSecond Timespec.sinceEpoch
  by_cases hpos : 0 ≤ time.sec
  · rw [if_pos hpos, if_pos (.inl hpos)]
    simp only [toI64_toNat hpos hhigh]
    exact ⟨trivial, by omega, hhigh⟩
  · rw [if_neg hpos]
    by_cases hzero : time.nsec = 0
    · rw [if_pos hzero]
      by_cases hfirst : time = .earliest
      · subst hfirst
        decide
      · have hneg := Timespec.neg_le hfirst hzero
        rw [if_pos (.inr ⟨hzero, hfirst⟩)]
        simp only [toI64_toNat (show 0 ≤ -time.sec by omega) hneg]
        rw [Checked.fit_neg (by omega), Int.neg_neg]
        exact ⟨rfl, by omega, hhigh⟩
    · rw [if_neg hzero, if_neg (by omega)]
      simp only [toI64_toNat (show 0 ≤ -time.sec - 1 by omega) (by omega)]
      rw [Checked.fit_neg (by omega)]
      exact ⟨congrArg _ (by omega), by omega, by omega⟩

theorem daysOf_eq (time : Timespec) : daysOf time = .fit (shownSecond time / 86400) ∧
    -maxI64 ≤ shownSecond time / 86400 * 800 ∧ shownSecond time / 86400 * 800 ≤ maxI64 := by
  have hmax : maxI64 = 9223372036854775807 := rfl
  obtain ⟨heq, hlow, hhigh⟩ := secondsOf_eq time
  refine ⟨?_, by omega, by omega⟩
  rw [daysOf, heq]
  exact Checked.fit_divEuclid (by omega) (by omega) (by omega)

/-- **The proleptic Gregorian calendar.**  A day count that a time has becomes the date
with that day number; no other count becomes it, and the next one becomes the day after. -/
theorem civilFromDays_gregorian (time : Timespec) : ∃ (days : Int) (date : Date),
    (daysOf time).value = some days ∧
    civilFromDays (daysOf time) = some (date.year, date.month, date.day) ∧
    date.number = days ∧
    (∀ time', civilFromDays (daysOf time') = civilFromDays (daysOf time) →
      (daysOf time').value = some days) ∧
    ∀ time', (daysOf time').value = some (days + 1) →
      civilFromDays (daysOf time') = some (date.next.year, date.next.month, date.next.day) := by
  have hmax : maxI64 = 9223372036854775807 := rfl
  have hdate (time : Timespec) : ∃ date : Date,
      (daysOf time).value = some date.number ∧
      civilFromDays (daysOf time) = some (date.year, date.month, date.day) := by
    obtain ⟨heq, hrange⟩ := daysOf_eq time
    obtain ⟨date, hcivil, hnumber⟩ := civilFromDays_date hrange
    refine ⟨date, ?_, heq ▸ hcivil⟩
    rw [heq, hnumber]
    exact Checked.value_fit (by omega)
  obtain ⟨date, hvalue, hcivil⟩ := hdate time
  refine ⟨date.number, date, hvalue, hcivil, rfl, fun time' h => ?_, fun time' h => ?_⟩
  · obtain ⟨date', hvalue', hcivil'⟩ := hdate time'
    rw [hcivil', hcivil, Option.some.injEq, Prod.mk.injEq, Prod.mk.injEq] at h
    rw [hvalue', Date.ext h.1 h.2.1 h.2.2]
  · obtain ⟨date', hvalue', hcivil'⟩ := hdate time'
    rw [hvalue', Option.some.injEq, ← Date.number_next] at h
    rw [hcivil', Date.number_injective h]

/-- The days the source's own test gives. -/
example : civilFromDays (.fit 11016) = some (2000, 2, 29) ∧
    civilFromDays (.fit (-719468)) = some (0, 3, 1) := by decide

/-! ### What a text shows -/

/-- The text is that of a minute, of which `minute` came before since 1970. -/
def Shows (text : List Char) (minute : Int) : Prop :=
  ∃ date : Date, date.number = minute / 1440 ∧
    text = stamp date.year date.month date.day (minute % 1440 / 60) (minute % 60)

theorem isDigit_of_mem_padding {n : Int} {k : Nat} {c : Char}
    (h : c ∈ List.replicate k '0' ++ Nat.toDigits 10 n.natAbs) : c.isDigit := by
  rcases List.mem_append.mp h with h | h
  · rw [(List.mem_replicate.mp h).2]
    decide
  · exact Nat.isDigit_of_mem_toDigits (by decide) (Nat.le_refl 10) h

theorem ofDigitChars_padding (k n : Nat) :
    Nat.ofDigitChars 10 (List.replicate k '0' ++ Nat.toDigits 10 n) 0 = n := by
  rw [Nat.ofDigitChars_append, Nat.ofDigitChars_replicate_zero, Nat.mul_zero,
    Nat.ofDigitChars_ten_toDigits]

theorem padded_neg (width : Nat) {n : Int} (h : n < 0) : ∃ k,
    padded width n = '-' :: (List.replicate k '0' ++ Nat.toDigits 10 n.natAbs) :=
  ⟨_, by rw [padded, if_pos h]; rfl⟩

theorem padded_nonneg {width : Nat} {n : Int} (h : ¬ n < 0) :
    padded width n = List.replicate (width - (Nat.toDigits 10 n.natAbs).length) '0' ++
      Nat.toDigits 10 n.natAbs := by
  rw [padded, if_neg h]
  rfl

theorem padded_injective {width : Nat} {m n : Int} (h : padded width m = padded width n) :
    m = n := by
  have hminus {n : Int} {k : Nat} {rest : List Char}
      (h : '-' :: rest = List.replicate k '0' ++ Nat.toDigits 10 n.natAbs) : False := by
    have := isDigit_of_mem_padding (h ▸ List.mem_cons_self)
    exact absurd this (by decide)
  by_cases hm : m < 0
  · obtain ⟨k, hk⟩ := padded_neg width hm
    by_cases hn : n < 0
    · obtain ⟨k', hk'⟩ := padded_neg width hn
      rw [hk, hk', List.cons.injEq] at h
      have habs := congrArg (Nat.ofDigitChars 10 · 0) h.2
      simp only [ofDigitChars_padding] at habs
      omega
    · rw [hk, padded_nonneg hn] at h
      exact (hminus h).elim
  · by_cases hn : n < 0
    · obtain ⟨k', hk'⟩ := padded_neg width hn
      rw [hk', padded_nonneg hm] at h
      exact (hminus h.symm).elim
    · rw [padded_nonneg hm, padded_nonneg hn] at h
      have habs := congrArg (Nat.ofDigitChars 10 · 0) h
      simp only [ofDigitChars_padding] at habs
      omega

theorem length_padded_two {n : Int} (h : 0 ≤ n ∧ n < 100) : (padded 2 n).length = 2 := by
  have hdigits : (Nat.toDigits 10 n.natAbs).length ≤ 2 :=
    (Nat.length_toDigits_le_iff (by decide) (by decide)).mpr (by omega)
  rw [padded_nonneg (by omega), List.length_append, List.length_replicate]
  omega

theorem stamp_injective {date date' : Date} {hour hour' minute minute' : Int}
    (hhour : 0 ≤ hour ∧ hour < 100) (hhour' : 0 ≤ hour' ∧ hour' < 100)
    (hminute : 0 ≤ minute ∧ minute < 100) (hminute' : 0 ≤ minute' ∧ minute' < 100)
    (h : stamp date.year date.month date.day hour minute =
      stamp date'.year date'.month date'.day hour' minute') :
    date = date' ∧ hour = hour' ∧ minute = minute' := by
  have hlen {n n' : Int} (hn : 0 ≤ n ∧ n < 100) (hn' : 0 ≤ n' ∧ n' < 100) (c : Char) :
      (c :: padded 2 n).length = (c :: padded 2 n').length := by
    rw [List.length_cons, List.length_cons, length_padded_two hn, length_padded_two hn']
  have hmonth (date : Date) : 0 ≤ (date.month : Int) ∧ (date.month : Int) < 100 := by
    have := date.month_mem
    omega
  have hday (date : Date) : 0 ≤ (date.day : Int) ∧ (date.day : Int) < 100 := by
    have := date.day_mem
    have := monthLength_le date.year date.month
    omega
  unfold stamp at h
  obtain ⟨h, hm⟩ := List.append_inj' h (hlen hminute hminute' ':')
  obtain ⟨h, hh⟩ := List.append_inj' h (hlen hhour hhour' ' ')
  obtain ⟨h, hd⟩ := List.append_inj' h (hlen (hday date) (hday date') '-')
  obtain ⟨hy, hmo⟩ := List.append_inj' h (hlen (hmonth date) (hmonth date') '-')
  rw [List.cons.injEq] at hm hh hd hmo
  exact ⟨Date.ext (padded_injective hy) (Int.ofNat.inj (padded_injective hmo.2))
    (Int.ofNat.inj (padded_injective hd.2)), padded_injective hh.2, padded_injective hm.2⟩

/-- A text shows one minute. -/
theorem Shows.unique {text : List Char} {minute minute' : Int} (h : Shows text minute)
    (h' : Shows text minute') : minute = minute' := by
  obtain ⟨date, hnumber, rfl⟩ := h
  obtain ⟨date', hnumber', heq⟩ := h'
  obtain ⟨rfl, hhour, hminute⟩ := stamp_injective (by omega) (by omega) (by omega) (by omega) heq
  omega

/-- What is shown of a time. -/
theorem formatModified_shows (time : Timespec) : ∃ text, formatModified time = some text ∧
    Shows text (shownSecond time / 60) := by
  have hmax : maxI64 = 9223372036854775807 := rfl
  obtain ⟨hseconds, hlow, hhigh⟩ := secondsOf_eq time
  obtain ⟨hdays, hrange⟩ := daysOf_eq time
  obtain ⟨date, hcivil, hnumber⟩ := civilFromDays_date hrange
  have hwithin : (secondsOf time).remEuclid 86400 = .fit (shownSecond time % 86400) := by
    rw [hseconds]
    exact Checked.fit_remEuclid (by omega) (by omega) (by omega)
  have hhour : (Checked.fit (shownSecond time % 86400) / 3600 : I64).value =
      some (shownSecond time / 60 % 1440 / 60) := by
    rw [Checked.ofNat_eq_fit, Checked.fit_div (by omega) (by omega) (by omega) (by omega),
      Checked.value_fit (by omega)]
    exact congrArg some (by omega)
  have hminute : (Checked.fit (shownSecond time % 86400) % 3600 / 60 : I64).value =
      some (shownSecond time / 60 % 60) := by
    rw [Checked.ofNat_eq_fit, Checked.ofNat_eq_fit,
      Checked.fit_mod (by omega) (by omega) (by omega) (by omega),
      Checked.fit_div (by omega) (by omega) (by omega) (by omega), Checked.value_fit (by omega)]
    exact congrArg some (by omega)
  refine ⟨_, ?_, date, ?_, rfl⟩
  · simp only [formatModified, hdays, hcivil, hwithin, hhour, hminute, Option.bind_eq_bind,
      Option.bind_some]
    rfl
  · rw [hnumber]
    omega

/-! ### The minute a time is in -/

/-- The nanoseconds from 1970 to a time. -/
def instant (time : Timespec) : Int := time.sec * nsecPerSec + time.nsec

/-- The time is in the minute before which there were `minute` since 1970. -/
def InMinute (time : Timespec) (minute : Int) : Prop :=
  minute * (60 * nsecPerSec) ≤ instant time ∧ instant time < (minute + 1) * (60 * nsecPerSec)

theorem inMinute_iff {time : Timespec} {minute : Int} :
    InMinute time minute ↔ minute = time.sec / 60 := by
  have hnsec := time.lt_nsecPerSec
  have hsec : nsecPerSec = 1000000000 := rfl
  unfold InMinute instant
  rw [hsec] at hnsec ⊢
  constructor <;> omega

theorem eq_earliest_iff {time : Timespec} :
    time = .earliest ↔ time.sec = -maxI64 - 1 ∧ time.nsec = 0 := by
  cases time
  simp [Timespec.earliest]

theorem shownSecond_mono {time time' : Timespec} (h : instant time ≤ instant time') :
    shownSecond time ≤ shownSecond time' := by
  have hnsec := time.lt_nsecPerSec
  have hnsec' := time'.lt_nsecPerSec
  have hlow := time.inRange.1
  have hsec : nsecPerSec = 1000000000 := rfl
  unfold instant at h
  unfold shownSecond
  simp only [ne_eq, eq_earliest_iff]
  rw [hsec] at h hnsec hnsec'
  split_ifs <;> omega

/-- When the minute shown is the one that the time is in. -/
theorem shownSecond_minute_iff (time : Timespec) : shownSecond time / 60 = time.sec / 60 ↔
    ¬ (time.sec < 0 ∧ time.nsec ≠ 0 ∧ (time.sec + 1) % 60 = 0) := by
  have hmax : maxI64 = 9223372036854775807 := rfl
  unfold shownSecond
  simp only [ne_eq, eq_earliest_iff]
  split_ifs <;> omega

/-- **The minute that is shown.**  It is the one the time is in but for times before 1970
in the last second of a minute, a part of it over; and a later time never shows an earlier
minute. -/
theorem formatModified_minute (time : Timespec) :
    ((∃ text minute, formatModified time = some text ∧ InMinute time minute ∧
        Shows text minute) ↔
      ¬ (time.sec < 0 ∧ time.nsec ≠ 0 ∧ (time.sec + 1) % 60 = 0)) ∧
    ∀ time', instant time ≤ instant time' →
      ∃ text text' minute minute', formatModified time = some text ∧ Shows text minute ∧
        formatModified time' = some text' ∧ Shows text' minute' ∧ minute ≤ minute' := by
  obtain ⟨text, htext, hshows⟩ := formatModified_shows time
  constructor
  · rw [← shownSecond_minute_iff]
    constructor
    · rintro ⟨text', minute, htext', hin, hshows'⟩
      obtain rfl : text = text' := Option.some.inj (htext.symm.trans htext')
      rw [hshows.unique hshows', inMinute_iff.mp hin]
    · intro heq
      exact ⟨text, _, htext, inMinute_iff.mpr rfl, heq ▸ hshows⟩
  · intro time' h
    obtain ⟨text', htext', hshows'⟩ := formatModified_shows time'
    have hmono := shownSecond_mono h
    exact ⟨text, text', _, _, htext, hshows, htext', hshows', by omega⟩

/-- Half a second before 1970. -/
def beforeEpoch : Timespec := ⟨-1, 500000000, by decide, by decide⟩

/-- It shows as the first minute of 1970. -/
theorem beforeEpoch_shows :
    formatModified beforeEpoch = some "1970-01-01 00:00".toList ∧
      ¬ ∀ time, ∃ text minute, formatModified time = some text ∧ InMinute time minute ∧
        Shows text minute := by
  have hshown : formatModified beforeEpoch = some "1970-01-01 00:00".toList := by decide
  refine ⟨hshown, fun hall => ?_⟩
  obtain ⟨text, minute, htext, hin, hshows⟩ := hall beforeEpoch
  obtain rfl : _ = minute := (inMinute_iff.mp hin).symm
  obtain rfl := Option.some.inj (hshown.symm.trans htext)
  have hepoch : Shows "1970-01-01 00:00".toList 0 :=
    ⟨⟨1970, 1, 1, by decide, by decide⟩, by decide, by decide⟩
  exact absurd (hshows.unique hepoch) (by decide)

end FilePeeker.Browser
