import Mathlib

/-!
# The proleptic Gregorian calendar

The calendar over all years, before its adoption and before year 1 included, in its own terms: the
length of a year and of a month, and the **number** of a date, the days from 1970-01-01 to it.

* `yearStart_strictMono`, `number_injective`: no two dates have one number;
* `Valid.next`: the numbers count the dates one by one.
-/

namespace Gregorian

variable (year : Int)

def isLeap : Bool := year % 4 == 0 && (year % 100 != 0 || year % 400 == 0)

def yearLength : Int := if isLeap year then 366 else 365

def monthLength (year month : Int) : Int :=
  if month = 2 then if isLeap year then 29 else 28
  else if month = 4 ∨ month = 6 ∨ month = 9 ∨ month = 11 then 30
  else 31

def yearStart : Int :=
  365 * (year - 1) + (year - 1) / 4 - (year - 1) / 100 + (year - 1) / 400 - 719162

def monthsLength (year : Int) : Nat → Int
  | 0 => 0
  | k + 1 => monthsLength year k + monthLength year (k + 1)

def numberOf (year month day : Int) : Int :=
  yearStart year + monthsLength year (month - 1).toNat + (day - 1)

/-- The weekday of a day by its number, Sunday 0: 1970-01-01 was a Thursday. -/
def weekday (number : Int) : Int := (number + 4) % 7

structure Valid (year month day : Int) : Prop where
  month_pos : 1 ≤ month
  month_le : month ≤ 12
  day_pos : 1 ≤ day
  day_le : day ≤ monthLength year month

/-! ## Years -/

theorem isLeap_iff : isLeap year = true ↔ year % 4 = 0 ∧ (year % 100 ≠ 0 ∨ year % 400 = 0) := by
  simp [isLeap]

theorem yearLength_le : 365 ≤ yearLength year ∧ yearLength year ≤ 366 := by
  unfold yearLength
  split <;> omega

theorem yearStart_succ : yearStart (year + 1) = yearStart year + yearLength year := by
  unfold yearStart yearLength
  split
  case isTrue h =>
    have hleap := (isLeap_iff year).1 h
    omega
  case isFalse h =>
    have hcommon := mt (isLeap_iff year).2 h
    omega

theorem yearStart_strictMono : StrictMono yearStart := by
  refine strictMono_int_of_lt_succ fun year => ?_
  rw [yearStart_succ]
  have := yearLength_le year
  omega

theorem year_unique {n y z : Int} (hy : yearStart y ≤ n ∧ n < yearStart (y + 1))
    (hz : yearStart z ≤ n ∧ n < yearStart (z + 1)) : y = z := by
  have hlt := yearStart_strictMono.lt_iff_lt.1 (lt_of_le_of_lt hy.1 hz.2)
  have hgt := yearStart_strictMono.lt_iff_lt.1 (lt_of_le_of_lt hz.1 hy.2)
  omega

/-! ## Months -/

theorem monthLength_le (year month : Int) :
    28 ≤ monthLength year month ∧ monthLength year month ≤ 31 := by
  unfold monthLength
  split_ifs <;> omega

theorem monthsLength_eq {year month : Int} (hpos : 1 ≤ month) (hle : month ≤ 12) :
    monthsLength year (month - 1).toNat =
      (367 * month - 362) / 12 - (if month ≤ 2 then 0 else if isLeap year then 1 else 2) := by
  cases hleap : isLeap year <;> interval_cases month <;> simp [monthsLength, monthLength, hleap]

theorem monthsLength_succ {year month : Int} (hpos : 1 ≤ month) :
    monthsLength year (month + 1 - 1).toNat =
      monthsLength year (month - 1).toNat + monthLength year month := by
  have hstep : (month + 1 - 1).toNat = (month - 1).toNat + 1 := by omega
  rw [hstep, monthsLength]
  congr 2
  omega

theorem monthsLength_year : monthsLength year 12 = yearLength year := by
  cases hleap : isLeap year <;> simp [monthsLength, monthLength, yearLength, hleap]

theorem monthsLength_mono : Monotone (monthsLength year) := by
  refine monotone_nat_of_le_succ fun k => ?_
  have := monthLength_le year (k + 1)
  rw [monthsLength]
  omega

/-! ## Dates -/

section
variable {year month day : Int}

theorem Valid.enclosed (h : Valid year month day) :
    yearStart year ≤ numberOf year month day ∧ numberOf year month day < yearStart (year + 1) := by
  have hstart := monthsLength_mono year (Nat.zero_le (month - 1).toNat)
  have hend := monthsLength_mono year (show (month + 1 - 1).toNat ≤ 12 by have := h.month_le; omega)
  rw [monthsLength_year, monthsLength_succ h.month_pos] at hend
  rw [yearStart_succ]
  have hpos := h.day_pos
  have hle := h.day_le
  simp only [monthsLength] at hstart
  unfold numberOf
  omega

theorem Valid.number_lt {month' day' : Int} (h : Valid year month day)
    (h' : Valid year month' day') (hlt : month < month') :
    numberOf year month day < numberOf year month' day' := by
  have hmono := monthsLength_mono year (show (month + 1 - 1).toNat ≤ (month' - 1).toNat by omega)
  rw [monthsLength_succ h.month_pos] at hmono
  have hle := h.day_le
  have hpos := h'.day_pos
  unfold numberOf
  omega

theorem number_injective {year' month' day' : Int} (h : Valid year month day)
    (h' : Valid year' month' day') (heq : numberOf year month day = numberOf year' month' day') :
    year = year' ∧ month = month' ∧ day = day' := by
  obtain rfl : year = year' := year_unique h.enclosed (heq ▸ h'.enclosed)
  rcases lt_trichotomy month month' with hlt | rfl | hgt
  · exact absurd heq (h.number_lt h' hlt).ne
  · unfold numberOf at heq
    exact ⟨rfl, rfl, by omega⟩
  · exact absurd heq (h'.number_lt h hgt).ne'

end

def next (year month day : Int) : Int × Int × Int :=
  if day < monthLength year month then (year, month, day + 1)
  else if month < 12 then (year, month + 1, 1)
  else (year + 1, 1, 1)

theorem Valid.next {year month day year' month' day' : Int} (h : Valid year month day)
    (hnext : next year month day = (year', month', day')) :
    Valid year' month' day' ∧ numberOf year' month' day' = numberOf year month day + 1 := by
  obtain ⟨hmonth, hmonth', hday, hday'⟩ := h
  unfold Gregorian.next at hnext
  unfold numberOf
  split_ifs at hnext with hsame hmore <;> cases hnext
  · exact ⟨⟨hmonth, hmonth', by omega, by omega⟩, by omega⟩
  · refine ⟨⟨by omega, by omega, by omega, ?_⟩, ?_⟩
    · have := monthLength_le year (month + 1)
      omega
    · rw [monthsLength_succ hmonth]
      omega
  · -- the last day of a December
    obtain rfl : month = 12 := by omega
    refine ⟨⟨by omega, by omega, by omega, ?_⟩, ?_⟩
    · have := monthLength_le (year + 1) 1
      omega
    · have htotal : monthsLength year 12 = _ := monthsLength_succ hmonth
      rw [monthsLength_year] at htotal
      simp only [yearStart_succ, sub_self, Int.toNat_zero, monthsLength]
      omega

end Gregorian
