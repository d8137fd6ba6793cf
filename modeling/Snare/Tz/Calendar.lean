import Snare.Lib.Checked
import Snare.Lib.Gregorian

/-!
# Dates of day counts

The date arithmetic of `tz.rs` as it computes it, in `i64`s that must not overflow, against the
calendar itself (`Gregorian`).

* `daysFromCivil_eq`: a valid date's day count is its number;
* `civilFromDays_eq`: the date of a day count is the one that has it for its number.
-/

namespace Snare.Tz

open Gregorian (numberOf yearStart yearStart_succ monthLength_le isLeap_iff yearLength_le)

def isLeap (year : Int) : Bool :=
  year.tmod 4 == 0 && (year.tmod 100 != 0 || year.tmod 400 == 0)

def monthLength (year month : Int) : Int :=
  if month = 2 then if isLeap year then 29 else 28
  else if month = 4 ∨ month = 6 ∨ month = 9 ∨ month = 11 then 30
  else 31

def daysFromCivil (year month day : Int) : Option Int := do
  let y ← I64.checked (if month ≤ 2 then year - 1 else year)
  let era := y / 400
  let yoe ← I64.sub y (← I64.mul era 400)
  let mp := (← I64.add month 9).tmod 12
  let doy ← I64.sub (← I64.add ((← I64.add (← I64.mul 153 mp) 2).tdiv 5) day) 1
  let doe ← I64.add (← I64.sub (← I64.add (← I64.mul yoe 365) (yoe.tdiv 4)) (yoe.tdiv 100)) doy
  I64.sub (← I64.add (← I64.mul era 146097) doe) 719468

def civilFromDays (days : Int) : Option (Int × Int × Int) := do
  let z ← I64.add days 719468
  let era := z / 146097
  let doe ← I64.sub z (← I64.mul era 146097)
  let yoe := (← I64.sub (← I64.add (← I64.sub doe (doe.tdiv 1460)) (doe.tdiv 36524))
    (doe.tdiv 146096)).tdiv 365
  let doy ← I64.sub doe (← I64.sub (← I64.add (← I64.mul 365 yoe) (yoe.tdiv 4)) (yoe.tdiv 100))
  let mp := (← I64.add (← I64.mul 5 doy) 2).tdiv 153
  let day ← I64.add (← I64.sub doy ((← I64.add (← I64.mul 153 mp) 2).tdiv 5)) 1
  let month ← I64.checked (if mp < 10 then mp + 3 else mp - 9)
  let year ← I64.add (← I64.add yoe (← I64.mul era 400)) (if month ≤ 2 then 1 else 0)
  some (year, month, day)

/-- The day of a year a rule names; the numbers are a `u16` and `u8`s. -/
inductive Day where
  | julian (n : Nat)
  | ordinal (n : Nat)
  | month (month week weekday : Nat)
  deriving DecidableEq

/-- The loop of `day_of` that takes a fifth week back into the month. No step overflows: each is
from a day at or past the month's length. -/
def intoMonth (length day : Int) : Int :=
  if length ≤ day then intoMonth length (day - 7) else day
termination_by (day - length + 7).toNat

def dayOf (year : Int) (day : Day) : Option Int := do
  let jan1 ← daysFromCivil year 1 1
  match day with
  | .julian n =>
    let n ← I64.sub n 1
    I64.add (← I64.add jan1 n) (if isLeap year ∧ 59 ≤ n then 1 else 0)
  | .ordinal n => I64.add jan1 n
  | .month month week weekday =>
    let first ← daysFromCivil year month 1
    let firstWeekday := (← I64.add first 4) % 7
    let day ← I64.add ((← I64.sub weekday firstWeekday) % 7) (← I64.mul 7 (← I64.sub week 1))
    I64.add first (intoMonth (monthLength year month) day)

/-! ## The day count of a date -/

theorem isLeap_eq (year : Int) : isLeap year = Gregorian.isLeap year := by
  have hzero (k : Int) : year.tmod k = 0 ↔ year % k = 0 := by
    rw [← Int.dvd_iff_tmod_eq_zero, Int.dvd_iff_emod_eq_zero]
  unfold isLeap Gregorian.isLeap
  rw [Bool.eq_iff_iff]
  simp only [Bool.and_eq_true, Bool.or_eq_true, beq_iff_eq, bne_iff_ne, ne_eq, hzero]

@[simp] theorem monthLength_eq (year month : Int) :
    monthLength year month = Gregorian.monthLength year month := by
  simp only [monthLength, Gregorian.monthLength, isLeap_eq]

theorem era_days (y : Int) :
    y / 400 * 146097 + ((y - y / 400 * 400) * 365 + (y - y / 400 * 400) / 4 -
      (y - y / 400 * 400) / 100) = 365 * y + y / 4 - y / 100 + y / 400 := by
  omega

theorem march_days {month : Int} (hmonth : 1 ≤ month) (hmonth' : month ≤ 12) :
    (153 * ((month + 9) % 12) + 2) / 5 =
      (367 * month - 362) / 12 + (if month ≤ 2 then 306 else -61) := by
  interval_cases month <;> rfl

theorem numberOf_march {year month day y : Int} (hmonth : 1 ≤ month) (hmonth' : month ≤ 12)
    (hy : y = if month ≤ 2 then year - 1 else year) :
    numberOf year month day =
      365 * y + y / 4 - y / 100 + y / 400 + ((153 * ((month + 9) % 12) + 2) / 5 + day - 1) -
        719468 := by
  rw [numberOf, Gregorian.monthsLength_eq hmonth hmonth', yearStart,
    march_days hmonth hmonth', hy]
  split
  case isTrue => omega
  case isFalse =>
    -- the leap day of a year is the last day of the March year before
    by_cases hleap : Gregorian.isLeap year = true
    · rw [if_pos hleap]
      rw [isLeap_iff] at hleap
      omega
    · rw [if_neg hleap]
      rw [isLeap_iff] at hleap
      omega

theorem daysFromCivil_eq {year month day : Int} (hlo : -2 ^ 40 ≤ year) (hhi : year ≤ 2 ^ 40)
    (hmonth : 1 ≤ month) (hmonth' : month ≤ 12) (hday : -2 ^ 40 ≤ day) (hday' : day ≤ 2 ^ 40) :
    daysFromCivil year month day = some (numberOf year month day) := by
  unfold daysFromCivil
  obtain ⟨y, hy⟩ : ∃ y, y = if month ≤ 2 then year - 1 else year := ⟨_, rfl⟩
  rw [← hy, numberOf_march hmonth hmonth' hy]
  simp (disch := omega) only [↓ranged_bind, Int.tmod_eq_emod_of_nonneg, Int.tdiv_eq_ediv_of_nonneg]
  refine (ranged_eq (by omega) (by omega)).trans ?_
  rw [← add_assoc, era_days]

theorem daysFromCivil_jan1 {year : Int} (hlo : -2 ^ 40 ≤ year) (hhi : year ≤ 2 ^ 40) :
    daysFromCivil year 1 1 = some (yearStart year) := by
  rw [daysFromCivil_eq hlo hhi (by omega) (by omega) (by omega) (by omega)]
  simp [numberOf, Gregorian.monthsLength]

/-! ## The date of a day count -/

/-- A day of an era by century, leap cycle, year of the cycle and day of the March year, whose last
day is a leap day, which a century's last year has only in the era's last century. -/
structure EraDay (doe century cycle rest doy : Int) : Prop where
  century_le : 0 ≤ century ∧ century ≤ 3
  cycle_le : 0 ≤ cycle ∧ cycle ≤ 24
  rest_le : 0 ≤ rest ∧ rest ≤ 3
  doy_nonneg : 0 ≤ doy
  doy_le : doy ≤ 364 ∨ doy = 365 ∧ rest = 3 ∧ (cycle ≠ 24 ∨ century = 3)
  eq : doe = 36524 * century + 1461 * cycle + 365 * rest + doy

theorem exists_eraDay {doe : Int} (hlo : 0 ≤ doe) (hhi : doe < 146097) :
    ∃ century cycle rest doy, EraDay doe century cycle rest doy := by
  refine ⟨min 3 (doe / 36524), (doe - 36524 * min 3 (doe / 36524)) / 1461,
    min 3 ((doe - 36524 * min 3 (doe / 36524)) % 1461 / 365), _,
    ?_, ?_, ?_, ?_, ?_, (add_sub_cancel _ _).symm⟩ <;> omega

theorem EraDay.year {doe century cycle rest doy : Int} (h : EraDay doe century cycle rest doy) :
    (doe - doe / 1460 + doe / 36524 - doe / 146096) / 365 = 100 * century + 4 * cycle + rest := by
  obtain ⟨hcentury, hcycle, hrest, hdoy, hdoy', heq⟩ := h
  have hcent : doe / 36524 - doe / 146096 = century := by
    by_cases hlast : doe = 146096
    · subst hlast
      omega
    · have htwo : doe / 36524 = century := by omega
      omega
  -- 1460 days are a day short of a cycle, so each cycle and each century's end adds to the quotient
  have hquad : doe / 1460 =
      25 * century + cycle + (24 * century + cycle + 365 * rest + doy) / 1460 := by omega
  rw [add_sub_assoc, hcent, hquad]
  omega

theorem EraDay.doy_eq {doe century cycle rest doy yoe : Int}
    (h : EraDay doe century cycle rest doy) (hyoe : yoe = 100 * century + 4 * cycle + rest) :
    0 ≤ yoe ∧ yoe < 400 ∧ doe - (365 * yoe + yoe / 4 - yoe / 100) = doy := by
  obtain ⟨hcentury, hcycle, hrest, hdoy, hdoy', heq⟩ := h
  omega

theorem EraDay.isLeap {doe century cycle rest doy era : Int}
    (h : EraDay doe century cycle rest doy) (hlast : doy = 365) :
    Gregorian.isLeap (100 * century + 4 * cycle + rest + era * 400 + 1) = true := by
  obtain ⟨hcentury, hcycle, hrest, -, hdoy', -⟩ := h
  rw [isLeap_iff]
  omega

theorem valid_of_doy (year : Int) {doy mp month : Int} (hlo : 0 ≤ doy) (hhi : doy ≤ 365)
    (hleap : doy = 365 → Gregorian.isLeap year = true) (hmp : mp = (5 * doy + 2) / 153)
    (hmonth : month = if mp < 10 then mp + 3 else mp - 9) :
    (month + 9) % 12 = mp ∧ Gregorian.Valid year month (doy - (153 * mp + 2) / 5 + 1) := by
  have hshift : (month + 9) % 12 = mp := by split at hmonth <;> omega
  refine ⟨hshift, by split at hmonth <;> omega, by split at hmonth <;> omega, by omega, ?_⟩
  -- only the days of February, the last of the March year, hang on the year
  by_cases hlast : doy = 365
  · obtain rfl : mp = 11 := by omega
    obtain rfl : month = 2 := hmonth
    subst hlast
    rw [Gregorian.monthLength, if_pos rfl, if_pos (hleap rfl)]
    decide
  · unfold Gregorian.monthLength
    split_ifs <;> split at hmonth <;> omega

theorem civilFromDays_eq {days : Int} (hlo : -2 ^ 50 ≤ days) (hhi : days ≤ 2 ^ 50) :
    ∃ year month day, civilFromDays days = some (year, month, day) ∧
      Gregorian.Valid year month day ∧ numberOf year month day = days := by
  unfold civilFromDays
  obtain ⟨era, hera⟩ : ∃ era, era = (days + 719468) / 146097 := ⟨_, rfl⟩
  obtain ⟨doe, hd⟩ : ∃ doe, doe = days + 719468 - era * 146097 := ⟨_, rfl⟩
  have hdoe : 0 ≤ doe ∧ doe < 146097 := by omega
  rw [ranged_bind (by omega) (by omega)]
  rw [← hera, ranged_bind (by omega) (by omega), ranged_bind (by omega) (by omega), ← hd]
  obtain ⟨century, cycle, rest, doy, hday⟩ := exists_eraDay hdoe.1 hdoe.2
  simp only [Int.tdiv_eq_ediv_of_nonneg hdoe.1]
  rw [ranged_bind (by omega) (by omega), ranged_bind (by omega) (by omega),
    ranged_bind (by omega) (by omega), Int.tdiv_eq_ediv_of_nonneg (by omega), hday.year]
  obtain ⟨yoe, hyoe⟩ : ∃ yoe, yoe = 100 * century + 4 * cycle + rest := ⟨_, rfl⟩
  obtain ⟨hyoe0, hyoe', hdoy⟩ := hday.doy_eq hyoe
  rw [← hyoe]
  simp only [Int.tdiv_eq_ediv_of_nonneg hyoe0]
  rw [ranged_bind (by omega) (by omega), ranged_bind (by omega) (by omega),
    ranged_bind (by omega) (by omega), ranged_bind (by omega) (by omega), hdoy]
  have hdoy0 := hday.doy_nonneg
  have hdoy' : doy ≤ 365 := by have := hday.doy_le; omega
  obtain ⟨mp, hmp⟩ : ∃ mp, mp = (5 * doy + 2) / 153 := ⟨_, rfl⟩
  obtain ⟨month, hmonth⟩ : ∃ month, month = if mp < 10 then mp + 3 else mp - 9 := ⟨_, rfl⟩
  rw [ranged_bind (by omega) (by omega), ranged_bind (by omega) (by omega),
    Int.tdiv_eq_ediv_of_nonneg (by omega), ← hmp]
  rw [← hmonth, ranged_bind (by omega) (by omega), ranged_bind (by omega) (by omega),
    Int.tdiv_eq_ediv_of_nonneg (by omega), ranged_bind (by omega) (by omega),
    ranged_bind (by omega) (by omega)]
  obtain ⟨year, hyear⟩ : ∃ year, year = yoe + era * 400 + if month ≤ 2 then 1 else 0 := ⟨_, rfl⟩
  rw [ranged_bind (by omega) (by omega), ranged_bind (by omega) (by omega),
    ranged_bind (by omega) (by omega), ranged_bind (by rw [← hyear]; omega)
      (by rw [← hyear]; omega),
    ← hyear]
  obtain ⟨hshift, hvalid⟩ := valid_of_doy year hdoy0 hdoy' (fun hlast => by
    have hfeb : month = 2 := by split at hmonth <;> omega
    rw [hyear, hfeb, hyoe]
    exact hday.isLeap hlast) hmp hmonth
  refine ⟨_, _, _, rfl, hvalid, ?_⟩
  have hfour : (yoe + era * 400) / 4 = yoe / 4 + era * 100 := by omega
  have hhundred : (yoe + era * 400) / 100 = yoe / 100 + era * 4 := by omega
  have hera : (yoe + era * 400) / 400 = era := by omega
  rw [numberOf_march (y := yoe + era * 400) hvalid.month_pos hvalid.month_le
    (by rw [hyear]; split <;> omega), hshift, hfour, hhundred, hera]
  omega

/-! ## The day of a rule -/

/-- The days a rule can name as `parse_posix` reads them. -/
def Day.Named : Day → Prop
  | .julian n => 1 ≤ n ∧ n ≤ 365
  | .ordinal n => n ≤ 365
  | .month m week weekday => (1 ≤ m ∧ m ≤ 12) ∧ (1 ≤ week ∧ week ≤ 5) ∧ weekday ≤ 6

/-- The days from the first of the month to the day of a month rule. -/
def weekdayIn (year month week weekday : Int) : Int :=
  intoMonth (Gregorian.monthLength year month)
    ((weekday - Gregorian.weekday (numberOf year month 1)) % 7 + 7 * (week - 1))

def Day.number (year : Int) : Day → Int
  | .julian n => yearStart year + (n - 1) +
      if Gregorian.isLeap year ∧ (59 : Int) ≤ n - 1 then 1 else 0
  | .ordinal n => yearStart year + n
  | .month m week weekday => numberOf year m 1 + weekdayIn year m week weekday

theorem intoMonth_spec (length day : Int) : intoMonth length day % 7 = day % 7 ∧
      (length ≤ day → length - 7 ≤ intoMonth length day ∧ intoMonth length day < length) ∧
      (day < length → intoMonth length day = day) := by
  fun_induction intoMonth length day with
  | case1 day hle ih =>
    obtain ⟨hmod, hpast, hwithin⟩ := ih
    refine ⟨by omega, fun _ => ?_, fun hlt => by omega⟩
    rcases lt_or_ge (day - 7) length with hlt | hge
    · rw [hwithin hlt]
      omega
    · exact hpast hge
  | case2 day hlt => exact ⟨rfl, fun hle => absurd hle hlt, fun _ => rfl⟩

/-- The day of a month rule lies in the month, on the weekday asked for, in the month's `week`-th
seven days or, for week 5, in its last seven. -/
theorem weekdayIn_spec (year month : Int) {week weekday day : Int} (hweek : 1 ≤ week ∧ week ≤ 5)
    (hweekday : 0 ≤ weekday ∧ weekday ≤ 6) (hday : weekdayIn year month week weekday = day) :
    (0 ≤ day ∧ day < Gregorian.monthLength year month) ∧
      Gregorian.weekday (numberOf year month 1 + day) = weekday ∧
      (week < 5 → 7 * (week - 1) ≤ day ∧ day < 7 * week) ∧
      (week = 5 → Gregorian.monthLength year month ≤ day + 7) := by
  have hlength := monthLength_le year month
  obtain ⟨hmod, hpast, hwithin⟩ := intoMonth_spec (Gregorian.monthLength year month)
    ((weekday - Gregorian.weekday (numberOf year month 1)) % 7 + 7 * (week - 1))
  rw [show intoMonth _ _ = day from hday] at hmod hpast hwithin
  unfold Gregorian.weekday at hmod hpast hwithin ⊢
  omega

theorem yearStart_bounds {year : Int} (hlo : -2 ^ 40 ≤ year) (hhi : year ≤ 2 ^ 40) :
    -2 ^ 49 ≤ yearStart year ∧ yearStart year ≤ 2 ^ 49 := by
  unfold yearStart
  omega

theorem year_bounds {year month day days : Int} (hvalid : Gregorian.Valid year month day)
    (hnumber : numberOf year month day = days) (hlo : -2 ^ 47 ≤ days)
    (hhi : days ≤ 2 ^ 47) : -2 ^ 39 ≤ year ∧ year ≤ 2 ^ 39 := by
  have hyear := hvalid.enclosed
  unfold yearStart at hyear
  omega

theorem numberOf_first (year : Int) {month : Int} (hmonth : 1 ≤ month ∧ month ≤ 12) :
    yearStart year ≤ numberOf year month 1 ∧
      numberOf year month 1 + Gregorian.monthLength year month ≤
        yearStart (year + 1) := by
  have hlength := monthLength_le year month
  have hfirst : Gregorian.Valid year month 1 := ⟨hmonth.1, hmonth.2, by omega, by omega⟩
  have hlast : Gregorian.Valid year month (Gregorian.monthLength year month) :=
    ⟨hmonth.1, hmonth.2, by omega, le_rfl⟩
  have hend := hlast.enclosed.2
  refine ⟨hfirst.enclosed.1, ?_⟩
  unfold numberOf at hend ⊢
  omega

theorem Day.Named.number_mem {day : Day} (h : day.Named) (year : Int) :
    yearStart year ≤ day.number year ∧
      day.number year ≤ yearStart (year + 1) := by
  have hlength := yearLength_le year
  rw [yearStart_succ]
  cases day with
  | julian n =>
    obtain ⟨hpos, hle⟩ := h
    dsimp only [Day.number]
    split
    case isTrue hleap =>
      rw [Gregorian.yearLength, if_pos hleap.1]
      omega
    case isFalse => omega
  | ordinal n =>
    have hle : n ≤ 365 := h
    dsimp only [Day.number]
    omega
  | month m week weekday =>
    obtain ⟨hm, hweek, hweekday⟩ := h
    have hfirst := @numberOf_first year m (by omega)
    have hday := (@weekdayIn_spec year m week weekday _ (by omega) (by omega) rfl).1
    rw [yearStart_succ] at hfirst
    dsimp only [Day.number]
    omega

theorem dayOf_eq {year : Int} {day : Day} (hlo : -2 ^ 40 ≤ year) (hhi : year ≤ 2 ^ 40)
    (hnamed : day.Named) : dayOf year day = some (day.number year) := by
  have hstart := yearStart_bounds hlo hhi
  unfold dayOf
  rw [daysFromCivil_jan1 hlo hhi, some_bind]
  cases day with
  | julian n =>
    obtain ⟨hpos, hle⟩ := hnamed
    dsimp only
    rw [ranged_bind (by omega) (by omega), ranged_bind (by omega) (by omega), isLeap_eq]
    exact ranged_eq (by split <;> omega) (by split <;> omega)
  | ordinal n =>
    have hle : n ≤ 365 := hnamed
    exact ranged_eq (by omega) (by omega)
  | month m week weekday =>
    obtain ⟨hm, hweek, hweekday⟩ := hnamed
    have hfirst := @numberOf_first year m (by omega)
    have hyear := yearStart_succ year
    have hlength := yearLength_le year
    have hday := (@weekdayIn_spec year m week weekday _ (by omega) (by omega) rfl).1
    dsimp only
    rw [daysFromCivil_eq hlo hhi (by omega) (by omega) (by omega) (by omega), some_bind,
      ranged_bind (by omega) (by omega), ranged_bind (by omega) (by omega),
      ranged_bind (by omega) (by omega), ranged_bind (by omega) (by omega),
      ranged_bind (by omega) (by omega), monthLength_eq]
    unfold weekdayIn Gregorian.weekday at hday
    exact ranged_eq (by omega) (by omega)

end Snare.Tz
