import Snare.Tz.Parse

/-!
# glibc's `mktime`

The Linux build finds the time a broken-down time names as glibc does: it guesses from the offset
its last call found, converts the guess, and moves it by how far off that is, six times at most;
where it comes out with the other `tm_isdst`, it looks for a time of the right kind around and moves
from there.

* **Each probe moves to one of two times** (`probe_found`): the local time taken by standard or by
  daylight offset. One of them is the time sought, so the third probe is the last.
* **`mktime` inverts `localtime`** where daylight time is an hour ahead (`mktime_inverts`). Where it
  is an hour behind and brief, the search misses it (`mktime_misses`).
-/

namespace Snare.Tz.Glibc

open Gregorian (numberOf yearStart yearStart_succ isLeap_iff yearLength_le)

def leapyear (year : Int) : Bool :=
  year % 4 == 0 && (year.tmod 100 != 0 || year.tdiv 100 % 4 == -19 % 4)

def monYday (leap : Bool) : List Int :=
  if leap then [0, 31, 60, 91, 121, 152, 182, 213, 244, 274, 305, 335, 366]
  else [0, 31, 59, 90, 120, 151, 181, 212, 243, 273, 304, 334, 365]

def isdstDiffer (a b : Int) : Prop := ¬(a = 0 ↔ b = 0) ∧ 0 ≤ a ∧ 0 ≤ b

instance (a b : Int) : Decidable (isdstDiffer a b) := by unfold isdstDiffer; infer_instance

/-- `a4` and `b4` of `ydhms_diff`: the years divisible by four before a year since 1900. -/
def fours (year : Int) : Option Int := do
  I64.sub (← I64.add (year / 4) 475) (if year % 4 = 0 then 1 else 0)

def hundreds (fours : Int) : Option Int := do
  I64.sub ((← I64.add fours (if fours < 0 then 1 else 0)).tdiv 25) (if fours < 0 then 1 else 0)

def ydhmsDiff (year1 yday1 hour1 min1 sec1 year0 yday0 hour0 min0 sec0 : Int) : Option Int := do
  let a4 ← fours year1
  let b4 ← fours year0
  let a100 ← hundreds a4
  let b100 ← hundreds b4
  let a400 := a100 / 4
  let b400 := b100 / 4
  let leapDays ← I64.add (← I64.sub (← I64.sub a4 b4) (← I64.sub a100 b100)) (← I64.sub a400 b400)
  let years ← I64.sub year1 year0
  let days ← I64.add (← I64.sub (← I64.add (← I64.mul 365 years) yday1) yday0) leapDays
  let hours ← I64.sub (← I64.add (← I64.mul 24 days) hour1) hour0
  let minutes ← I64.sub (← I64.add (← I64.mul 60 hours) min1) min0
  I64.sub (← I64.add (← I64.mul 60 minutes) sec1) sec0

/-- The time asked for, its month carried into the year and the day of the year. -/
structure Request where
  year : Int
  yday : Int
  hour : Int
  min : Int
  sec : Int
  isdst : Int

def Request.diff (r : Request) (tm : Tm) : Option Int :=
  ydhmsDiff r.year r.yday r.hour r.min r.sec tm.year tm.yday tm.hour tm.min tm.sec

def avg (a b : Int) : Int := a / 2 + b / 2 + if a % 2 = 0 ∧ b % 2 = 0 then 0 else 1

theorem avg_between {a b : Int} (ha : avg a b ≠ a) (hb : avg a b ≠ b) :
    a < avg a b ∧ avg a b < b ∨ b < avg a b ∧ avg a b < a := by
  have havg : avg a b = a / 2 + b / 2 ∧ a % 2 = 0 ∧ b % 2 = 0 ∨
      avg a b = a / 2 + b / 2 + 1 ∧ ¬(a % 2 = 0 ∧ b % 2 = 0) := by
    unfold avg
    split
    · rename_i heven
      exact .inl ⟨Int.add_zero _, heven⟩
    · rename_i hodd
      exact .inr ⟨rfl, hodd⟩
  omega

/-- The bisection of `ranged_convert`, between a time that converts and one that does not. -/
def bisect (z : Zone) (good bad : Int) (found : Option Tm) : Option (Option (Int × Tm)) :=
  if _h : avg good bad = good ∨ avg good bad = bad then some (found.map (good, ·))
  else do
    match ← breakDown .linux z (avg good bad) with
    | some tm => bisect z (avg good bad) bad (some tm)
    | none => bisect z good (avg good bad) found
termination_by (bad - good).natAbs
decreasing_by
  all_goals
    rw [not_or] at _h
    have := avg_between _h.1 _h.2
    omega

def rangedConvert (z : Zone) (t : Int) : Option (Option (Int × Tm)) := do
  match ← breakDown .linux z t with
  | some tm => some (some (t, tm))
  | none => bisect z 0 t none

/-- One probe from `t`: where it ends the search, or the time it converted, how far that is off and
whether it is daylight time. -/
def probeAt (z : Zone) (r : Request) (t t1 t2 : Int) (dst2 : Bool) :
    Option (Option (Bool × Int × Tm) ⊕ Int × Int × Bool) := do
  match ← rangedConvert z t with
  | none => some (.inl none)
  | some (t, tm) =>
    let dt ← r.diff tm
    if dt = 0 then some (.inl (some (true, t, tm)))
    else if t = t1 ∧ t ≠ t2 ∧ (tm.isdst < 0 ∨
        if r.isdst < 0 then dst2 → tm.isdst ≠ 0 else ¬(r.isdst ≠ 0 ↔ tm.isdst ≠ 0)) then
      some (.inl (some (false, t, tm)))
    else some (.inr (t, dt, tm.isdst ≠ 0))

/-- The probes of `mktime`, with those remaining: a time with the local time asked for, or one of
two it goes back and forth between; `none` when they run out. -/
def probe (z : Zone) (r : Request) :
    Nat → (t t1 t2 : Int) → Bool → Option (Option (Bool × Int × Tm))
  | 0, _, _, _, _ => some none
  | remaining + 1, t, t1, t2, dst2 => do
    match ← probeAt z r t t1 t2 dst2 with
    | .inl result => some result
    | .inr (t, dt, dst) =>
      if remaining = 0 then some none else probe z r remaining (← I64.add t dt) t2 t dst

def STRIDE : Int := 601200

def deltaBound : Int := 457243209 / 2 + STRIDE

/-- What looking around for a time of the other kind comes to. -/
inductive Hunt where
  | failed
  | found (t : Int) (tm : Tm)
  | missed

/-- One turn of that: from a time of the right kind, the time asked for. -/
def huntAt (z : Zone) (r : Request) (ot : Option Int) : Option Hunt :=
  match ot with
  | none => some .missed
  | some ot => do
    match ← rangedConvert z ot with
    | none => some .failed
    | some (ot, otm) =>
      if isdstDiffer r.isdst otm.isdst then some .missed
      else
        let gt ← I64.add ot (← r.diff otm)
        match ← breakDown .linux z gt with
        | some gtm => some (.found gt gtm)
        | none => some .missed

def hunt (z : Zone) (r : Request) (t delta : Int) : Option Hunt :=
  if delta < deltaBound then do
    match ← huntAt z r (I64.add t (delta * -1)) with
    | .missed =>
      match ← huntAt z r (I64.add t (delta * 1)) with
      | .missed => hunt z r t (delta + STRIDE)
      | outcome => some outcome
    | outcome => some outcome
  else some .missed
termination_by (deltaBound - delta).toNat
decreasing_by
  unfold STRIDE
  omega

/-- What `mktime` makes of a time with the local time asked for: one whose `tm_isdst` agrees. -/
def agree (z : Zone) (r : Request) (t : Int) (tm : Tm) : Option (Option (Int × Tm)) :=
  if isdstDiffer r.isdst tm.isdst then do
    match ← hunt z r t STRIDE with
    | .failed => some none
    | .found t tm => some (some (t, tm))
    | .missed =>
      let difference : Int := (if r.isdst = 0 then 1 else 0) - (if tm.isdst = 0 then 1 else 0)
      let t ← I64.add t (3600 * difference)
      some ((← breakDown .linux z t).map (t, ·))
  else some (some (t, tm))

/-- `mktime`: its result, and what it leaves of the caller's time and of the offset its last call
found. -/
def mktime (z : Zone) (tp : Tm) (offset : Int) : Option (Option Int × Tm × Int) := do
  let remainder := tp.mon.tmod 12
  let negative : Int := if remainder < 0 then 1 else 0
  let year ← I64.add tp.year (← I32.sub (tp.mon.tdiv 12) negative)
  let before ← (monYday (leapyear year))[(remainder + 12 * negative).toNat]?
  let sec := max 0 (min tp.sec 59)
  let r : Request := ⟨year, before - 1 + tp.mday, tp.hour, tp.min, sec, tp.isdst⟩
  let guess := (-offset).bmod (2 ^ 32)
  let t0 ← ydhmsDiff r.year r.yday r.hour r.min r.sec 70 0 0 0 guess
  match ← probe z r 6 t0 t0 t0 false with
  | none => some (none, tp, offset)
  | some (exact, t, tm) =>
    match ← if exact then agree z r t tm else some (some (t, tm)) with
    | none => some (none, tp, offset)
    | some (t, tm) =>
      let offset := (t - t0 - guess).bmod (2 ^ 64)
      if tp.sec = tm.sec then some (some t, tm, offset)
      else
        match I64.checked (t + ((if sec = 0 ∧ tm.sec = 60 then 1 else 0) - sec + tp.sec)) with
        | none => some (none, tp, offset)
        | some t =>
          match ← breakDown .linux z t with
          | none => some (none, tp, offset)
          | some tm => some (some t, tm, offset)

/-! ## Differences of local times -/

theorem fours_eq {year : Int} (hlo : -2 ^ 40 ≤ year) (hhi : year ≤ 2 ^ 40) :
    fours year = some ((year + 1899) / 4) := by
  unfold fours
  rw [ranged_bind (by omega) (by omega)]
  split <;> rw [show I64.sub _ _ = _ from ranged_eq (by omega) (by omega)] <;> congr 1 <;> omega

theorem hundreds_eq {n : Int} (hlo : -2 ^ 40 ≤ n) (hhi : n ≤ 2 ^ 40) :
    hundreds n = some (n / 25) := by
  unfold hundreds
  split
  · -- a negative count is rounded down from the one above
    rw [ranged_bind (by omega) (by omega)]
    have htdiv : (n + 1).tdiv 25 = -((-(n + 1)) / 25) := by
      rw [← Int.tdiv_eq_ediv_of_nonneg (by omega), Int.neg_tdiv, Int.neg_neg]
    rw [htdiv, show I64.sub _ _ = _ from ranged_eq (by omega) (by omega)]
    congr 1
    omega
  · rw [ranged_bind (by omega) (by omega), Int.tdiv_eq_ediv_of_nonneg (by omega),
      show I64.sub _ _ = _ from ranged_eq (by omega) (by omega)]
    congr 1
    omega

/-- The seconds of a local time by its year since 1900 and the day of the year. -/
def localOf (year yday hour min sec : Int) : Int :=
  (yearStart (year + 1900) + yday) * 86400 + hour * 3600 + min * 60 + sec

theorem ydhmsDiff_eq {year1 yday1 hour1 min1 sec1 year0 yday0 hour0 min0 sec0 : Int}
    (hyear1 : -2 ^ 32 ≤ year1 ∧ year1 ≤ 2 ^ 32) (hyear0 : -2 ^ 32 ≤ year0 ∧ year0 ≤ 2 ^ 32)
    (hyday1 : -2 ^ 32 ≤ yday1 ∧ yday1 ≤ 2 ^ 32) (hyday0 : -2 ^ 32 ≤ yday0 ∧ yday0 ≤ 2 ^ 32)
    (hhour1 : -2 ^ 32 ≤ hour1 ∧ hour1 ≤ 2 ^ 32) (hhour0 : -2 ^ 32 ≤ hour0 ∧ hour0 ≤ 2 ^ 32)
    (hmin1 : -2 ^ 32 ≤ min1 ∧ min1 ≤ 2 ^ 32) (hmin0 : -2 ^ 32 ≤ min0 ∧ min0 ≤ 2 ^ 32)
    (hsec1 : -2 ^ 32 ≤ sec1 ∧ sec1 ≤ 2 ^ 32) (hsec0 : -2 ^ 32 ≤ sec0 ∧ sec0 ≤ 2 ^ 32) :
    ydhmsDiff year1 yday1 hour1 min1 sec1 year0 yday0 hour0 min0 sec0 =
      some (localOf year1 yday1 hour1 min1 sec1 - localOf year0 yday0 hour0 min0 sec0) := by
  -- the leap days before each year, as the calendar counts them
  have hleap (year : Int) : yearStart (year + 1900) = 365 * (year + 1899) +
      ((year + 1899) / 4 - (year + 1899) / 4 / 25 + (year + 1899) / 4 / 25 / 4) - 719162 := by
    unfold yearStart
    omega
  unfold ydhmsDiff localOf
  rw [hleap, hleap, fours_eq (by omega) (by omega), some_bind, fours_eq (by omega) (by omega),
    some_bind, hundreds_eq (by omega) (by omega), some_bind, hundreds_eq (by omega) (by omega),
    some_bind]
  -- only their bounds matter from here
  have hcount {year : Int} (hyear : -2 ^ 32 ≤ year ∧ year ≤ 2 ^ 32) : ∃ n n' n'',
      n = (year + 1899) / 4 ∧ n' = n / 25 ∧ n'' = n' / 4 ∧ (-2 ^ 31 ≤ n ∧ n ≤ 2 ^ 31) ∧
        (-2 ^ 31 ≤ n' ∧ n' ≤ 2 ^ 31) ∧ -2 ^ 31 ≤ n'' ∧ n'' ≤ 2 ^ 31 :=
    ⟨_, _, _, rfl, rfl, rfl, by omega, by omega, by omega⟩
  obtain ⟨a, a', a'', ha, ha', ha'', hbounds⟩ := hcount hyear1
  obtain ⟨b, b', b'', hb, hb', hb'', hbounds'⟩ := hcount hyear0
  rw [← ha, ← hb, ← ha', ← hb']
  rw [← ha'', ← hb'']
  iterate 18 rw [ranged_bind (by omega) (by omega)]
  rw [show I64.sub _ _ = _ from ranged_eq (by omega) (by omega)]
  congr 1
  omega

/-! ## A zone of two types -/

/-- A zone in which every time has one of two types, one standard and one daylight. -/
structure TwoTypes (z : Zone) (std dst : LocalType) : Prop where
  cases : ∀ t, I64.Holds t → z.at_ .linux t = some std ∨ z.at_ .linux t = some dst
  isdst : std.isdst = false ∧ dst.isdst = true
  std_bound : -2 ^ 20 < std.utoff ∧ std.utoff < 2 ^ 20
  dst_bound : -2 ^ 20 < dst.utoff ∧ dst.utoff < 2 ^ 20

/-- The fields of a broken-down time are within what its members hold. -/
structure Fits (tm : Tm) : Prop where
  year : -2 ^ 32 ≤ tm.year ∧ tm.year ≤ 2 ^ 32
  yday : -2 ^ 32 ≤ tm.yday ∧ tm.yday ≤ 2 ^ 32
  hour : 0 ≤ tm.hour ∧ tm.hour ≤ 23
  min : 0 ≤ tm.min ∧ tm.min ≤ 59
  sec : 0 ≤ tm.sec ∧ tm.sec ≤ 59

def ofTm (tm : Tm) : Int := localOf tm.year tm.yday tm.hour tm.min tm.sec

/-- `tm` is the broken-down time of `t`, of type `ty`. -/
structure Shown (z : Zone) (t : Int) (ty : LocalType) (tm : Tm) : Prop where
  shown : breakDown .linux z t = some (some tm)
  type : z.at_ .linux t = some ty
  ofTm : ofTm tm = t + ty.utoff
  isdst : tm.isdst = if ty.isdst then 1 else 0
  fits : Fits tm
  small : t.natAbs < 2 ^ 56

variable {z : Zone} {std dst ty : LocalType} {t : Int} {tm : Tm}

theorem exists_shown (h : breakDown .linux z t = some (some tm)) : ∃ ty, Shown z t ty tm := by
  obtain ⟨ty, year, month, day, ht, hty, hlocal, hvalid, hnumber, hyear, rfl⟩ := breakDown_inv h
  have henclosed := hvalid.enclosed
  have hlength := yearLength_le year
  rw [hnumber, yearStart_succ] at henclosed
  unfold I32.Holds at hyear
  refine ⟨ty, h, hty, ?_, rfl, ⟨?_, ?_, ?_, ?_, ?_⟩, ht⟩
  · simp only [Glibc.ofTm, localOf, tmOf, Int.sub_add_cancel]
    omega
  all_goals
    simp only [tmOf]
    omega

namespace TwoTypes

variable (hz : TwoTypes z std dst)
include hz

theorem type_cases (h : Shown z t ty tm) : ty = std ∨ ty = dst := by
  have hsmall := h.small
  rcases hz.cases t (by unfold I64.Holds; omega) with hty | hty
  · exact .inl (Option.some.inj (h.type.symm.trans hty))
  · exact .inr (Option.some.inj (h.type.symm.trans hty))

theorem utoff_bound (h : Shown z t ty tm) : -2 ^ 20 < ty.utoff ∧ ty.utoff < 2 ^ 20 := by
  rcases hz.type_cases h with rfl | rfl
  · exact hz.std_bound
  · exact hz.dst_bound

theorem type_eq {t' : Int} {ty' : LocalType} {tm' : Tm} (h : Shown z t ty tm)
    (h' : Shown z t' ty' tm')
    (hisdst : ty.isdst = ty'.isdst) : ty = ty' := by
  obtain ⟨hstd, hdst⟩ := hz.isdst
  rcases hz.type_cases h with rfl | rfl <;> rcases hz.type_cases h' with rfl | rfl
  · rfl
  · rw [hstd, hdst] at hisdst
    cases hisdst
  · rw [hstd, hdst] at hisdst
    cases hisdst
  · rfl

theorem breakDown_cases (ht : I64.Holds t) :
    breakDown .linux z t = some none ∨ ∃ ty tm, Shown z t ty tm := by
  obtain ⟨ty, hty⟩ : ∃ ty, z.at_ .linux t = some ty := by
    rcases hz.cases t ht with hty | hty
    · exact ⟨_, hty⟩
    · exact ⟨_, hty⟩
  obtain ⟨_ | tm, hshown⟩ := breakDown_isSome hty
  · exact .inl hshown
  · obtain ⟨ty, hshown⟩ := exists_shown hshown
    exact .inr ⟨ty, tm, hshown⟩

theorem exists_shown_of_small (ht : t.natAbs ≤ 2 ^ 55 + 2 ^ 40) : ∃ ty tm, Shown z t ty tm := by
  obtain ⟨ty, hty, hutoff⟩ :
      ∃ ty, z.at_ .linux t = some ty ∧ -2 ^ 20 < ty.utoff ∧ ty.utoff < 2 ^ 20 := by
    rcases hz.cases t (by unfold I64.Holds; omega) with hty | hty
    · exact ⟨_, hty, hz.std_bound⟩
    · exact ⟨_, hty, hz.dst_bound⟩
  obtain ⟨year, month, day, hvalid, hnumber, -, hshown⟩ :=
    breakDown_eq (by omega) hty (by unfold I64.Holds; omega)
  have henclosed := hvalid.enclosed
  rw [hnumber] at henclosed
  have hyear : I32.Holds (year - 1900) := by
    unfold yearStart at henclosed
    unfold I32.Holds
    omega
  rw [if_pos hyear] at hshown
  obtain ⟨ty, hshown⟩ := exists_shown hshown
  exact ⟨ty, _, hshown⟩

theorem exists_bisect {good bad : Int} {ty : LocalType} {tm : Tm} (h : Shown z good ty tm)
    (hbad : bad.natAbs ≤ 2 ^ 57) :
    ∃ b ty' tm', bisect z good bad (some tm) = some (some (b, tm')) ∧ Shown z b ty' tm' := by
  have hgood := h.small
  rw [bisect]
  split
  · exact ⟨good, ty, tm, rfl, h⟩
  · rename_i hmid
    rw [not_or] at hmid
    have hbetween := avg_between hmid.1 hmid.2
    rcases hz.breakDown_cases (show I64.Holds (avg good bad) by unfold I64.Holds; omega) with
      hnone | ⟨ty', tm', hshown⟩
    · rw [hnone, some_bind]
      exact exists_bisect h (by omega)
    · rw [hshown.shown, some_bind]
      exact exists_bisect hshown hbad
  termination_by (bad - good).natAbs
  decreasing_by
    all_goals omega

theorem exists_rangedConvert (ht : t.natAbs ≤ 2 ^ 56 + 2 ^ 40) :
    ∃ b ty tm, rangedConvert z t = some (some (b, tm)) ∧ Shown z b ty tm ∧
      ∀ ty' tm', Shown z t ty' tm' → b = t := by
  unfold rangedConvert
  rcases hz.breakDown_cases (show I64.Holds t by unfold I64.Holds; omega) with
    hnone | ⟨ty, tm, hshown⟩
  · have hfar : 2 ^ 55 < t.natAbs := by
      by_contra hnear
      obtain ⟨ty, tm, hshown⟩ := hz.exists_shown_of_small (show t.natAbs ≤ 2 ^ 55 + 2 ^ 40 by omega)
      cases hnone.symm.trans hshown.shown
    have havg : (avg 0 t).natAbs ≤ 2 ^ 55 + 2 ^ 40 ∧ avg 0 t ≠ 0 ∧ avg 0 t ≠ t := by
      unfold avg
      split <;> omega
    obtain ⟨ty, tm, hshown⟩ := hz.exists_shown_of_small havg.1
    obtain ⟨b, ty', tm', hbisect, hshown'⟩ :=
      hz.exists_bisect hshown (show t.natAbs ≤ 2 ^ 57 by omega)
    refine ⟨b, ty', tm', ?_, hshown', fun ty' tm' h => nomatch hnone.symm.trans h.shown⟩
    rw [hnone, some_bind]
    rw [bisect, dif_neg (by simp [havg]), hshown.shown, some_bind]
    exact hbisect
  · refine ⟨t, ty, tm, ?_, hshown, fun _ _ _ => rfl⟩
    rw [hshown.shown, some_bind]

end TwoTypes

/-! ## The probes -/

def Request.of (tm : Tm) : Request := ⟨tm.year, tm.yday, tm.hour, tm.min, tm.sec, tm.isdst⟩

theorem Request.diff_eq {tm' : Tm} (h : Fits tm) (h' : Fits tm') :
    (Request.of tm).diff tm' = some (ofTm tm - ofTm tm') := by
  have small {x : Int} (hx : 0 ≤ x ∧ x ≤ 59) : -2 ^ 32 ≤ x ∧ x ≤ 2 ^ 32 := by omega
  have hhour : tm.hour ≤ 59 := h.hour.2.trans (by decide)
  have hhour' : tm'.hour ≤ 59 := h'.hour.2.trans (by decide)
  exact ydhmsDiff_eq h.year h'.year h.yday h'.yday (small ⟨h.hour.1, hhour⟩)
    (small ⟨h'.hour.1, hhour'⟩) (small h.min) (small h'.min) (small h.sec) (small h'.sec)

section Search

variable (hz : TwoTypes z std dst) (h : Shown z t ty tm)
include hz h

theorem probe_eq {t₀ b t1 t2 : Int} {ty' : LocalType} {tm' : Tm} (n : Nat) (d : Bool)
    (hconvert : rangedConvert z t₀ = some (some (b, tm'))) (h' : Shown z b ty' tm')
    (hback : ¬(b = t1 ∧ b ≠ t2)) :
    probe z (.of tm) (n + 2) t₀ t1 t2 d = if ofTm tm = ofTm tm' then some (some (true, b, tm'))
      else probe z (.of tm) (n + 1) (ofTm tm - ty'.utoff) t2 b (tm'.isdst ≠ 0) := by
  have hsmall := h.small
  have hutoff := hz.utoff_bound h
  have hutoff' := hz.utoff_bound h'
  rw [probe, probeAt, hconvert, some_bind]
  dsimp only
  rw [Request.diff_eq h.fits h'.fits, some_bind]
  by_cases heq : ofTm tm = ofTm tm'
  · rw [if_pos (by omega), if_pos heq]
    rfl
  · have hmoved : I64.add b (ofTm tm - ofTm tm') = some (ofTm tm - ty'.utoff) := by
      rw [h.ofTm, h'.ofTm, show I64.add _ _ = _ from ranged_eq (by omega) (by omega)]
      congr 1
      omega
    rw [if_neg (by omega), if_neg fun hstop => hback ⟨hstop.1, hstop.2.1⟩, if_neg heq]
    rw [some_bind]
    dsimp only
    rw [if_neg (Nat.succ_ne_zero n), hmoved, some_bind]

omit hz in
theorem Shown.unique {t' : Int} {ty' : LocalType} {tm' : Tm}
    (h' : Shown z t' ty' tm') (heq : t' = t) :
    ty' = ty ∧ tm' = tm := by
  subst heq
  exact ⟨Option.some.inj (h'.type.symm.trans h.type),
    Option.some.inj (Option.some.inj (h'.shown.symm.trans h.shown))⟩

omit hz in
theorem Shown.rangedConvert : rangedConvert z t = some (some (t, tm)) := by
  rw [Glibc.rangedConvert, h.shown, some_bind]

/-- **The third probe is the last.** Whatever the first guess, the next is the local time by one of
the two offsets, and the one after is a time sought. -/
theorem probe_found (hstd : ∃ ty' tm', Shown z (ofTm tm - std.utoff) ty' tm')
    (hdst : ∃ ty' tm', Shown z (ofTm tm - dst.utoff) ty' tm') {t₀ : Int}
    (ht₀ : t₀.natAbs ≤ 2 ^ 56 + 2 ^ 40) :
    ∃ t' ty' tm', probe z (.of tm) 6 t₀ t₀ t₀ false = some (some (true, t', tm')) ∧
      Shown z t' ty' tm' ∧ ofTm tm' = ofTm tm := by
  obtain ⟨b, ty₀, tm₀, hconvert, hb, hself⟩ := hz.exists_rangedConvert ht₀
  rw [probe_eq hz h 4 false hconvert hb fun hback => hback.2 hback.1]
  split
  · next heq => exact ⟨b, ty₀, tm₀, rfl, hb, heq.symm⟩
  next hfirst =>
  -- the second probe is at the local time by the offset of the first
  obtain ⟨ty₁, tm₁, h₁⟩ : ∃ ty' tm', Shown z (ofTm tm - ty₀.utoff) ty' tm' := by
    rcases hz.type_cases hb with rfl | rfl
    · exact hstd
    · exact hdst
  have hback : ¬(ofTm tm - ty₀.utoff = t₀ ∧ ofTm tm - ty₀.utoff ≠ b) := by
    rintro ⟨heq, hne⟩
    exact hne (heq.trans (hself ty₁ tm₁ (heq ▸ h₁)).symm)
  rw [probe_eq hz h 3 _ h₁.rangedConvert h₁ hback]
  split
  · next heq => exact ⟨_, ty₁, tm₁, rfl, h₁, heq.symm⟩
  next hsecond =>
  -- and if that has the other offset, the time asked for has it too
  have hty₁ : ty₁.utoff ≠ ty₀.utoff := by
    intro heq
    have := h₁.ofTm
    omega
  have hty : ty = ty₁ := by
    have hne : ty ≠ ty₀ := by
      rintro rfl
      have ht : ofTm tm - ty.utoff = t := by
        have := h.ofTm
        omega
      exact hty₁ (by rw [(h.unique h₁ ht).1])
    rcases hz.type_cases h with rfl | rfl <;> rcases hz.type_cases hb with rfl | rfl <;>
      rcases hz.type_cases h₁ with rfl | rfl
    all_goals first | rfl | exact absurd rfl hne | exact absurd rfl hty₁
  have ht : ofTm tm - ty₁.utoff = t := by
    have := h.ofTm
    rw [← hty]
    omega
  have hback' : ¬(t = b ∧ t ≠ ofTm tm - ty₀.utoff) :=
    fun hstop => hfirst (by rw [(h.unique hb hstop.1.symm).2])
  rw [ht, probe_eq hz h 2 _ h.rangedConvert h hback', if_pos rfl]
  exact ⟨t, ty, tm, rfl, h, rfl⟩

/-! ## Looking around -/

omit hz in
theorem not_isdstDiffer_iff {t' : Int} {ty' : LocalType} {tm' : Tm} (h' : Shown z t' ty' tm') :
    ¬ isdstDiffer tm.isdst tm'.isdst ↔ ty.isdst = ty'.isdst := by
  rw [h.isdst, h'.isdst]
  cases ty.isdst <;> cases ty'.isdst <;> decide

theorem huntAt_cases {ot : Int} (hot : ot.natAbs ≤ 2 ^ 56 + 2 ^ 40) :
    huntAt z (.of tm) (some ot) = some .missed ∨
      huntAt z (.of tm) (some ot) = some (.found t tm) := by
  obtain ⟨b, ty', tm', hconvert, hb, -⟩ := hz.exists_rangedConvert hot
  unfold huntAt
  dsimp only
  rw [hconvert, some_bind]
  dsimp only
  split
  · exact .inl rfl
  · next hagree =>
    have hty := hz.type_eq h hb ((not_isdstDiffer_iff h hb).1 hagree)
    have hsmall := h.small
    have hmoved : I64.add b (ofTm tm - ofTm tm') = some t := by
      rw [h.ofTm, hb.ofTm, ← hty, show I64.add _ _ = _ from ranged_eq (by omega) (by omega)]
      congr 1
      omega
    rw [Request.diff_eq h.fits hb.fits, some_bind, hmoved, some_bind, h.shown, some_bind]
    exact .inr rfl

theorem hunt_cases {t' delta : Int} (ht' : t'.natAbs < 2 ^ 56) (hdelta : 0 ≤ delta) :
    hunt z (.of tm) t' delta = some .missed ∨ hunt z (.of tm) t' delta = some (.found t tm) := by
  rw [hunt]
  split
  · next hlt =>
    unfold deltaBound STRIDE at hlt
    rw [show I64.add t' (delta * -1) = _ from ranged_eq (by omega) (by omega),
      show I64.add t' (delta * 1) = _ from ranged_eq (by omega) (by omega)]
    rcases huntAt_cases hz h (show (t' + delta * -1).natAbs ≤ 2 ^ 56 + 2 ^ 40 by omega) with
      hleft | hleft
    · rw [hleft, some_bind]
      rcases huntAt_cases hz h (show (t' + delta * 1).natAbs ≤ 2 ^ 56 + 2 ^ 40 by omega) with
        hright | hright
      · rw [hright, some_bind]
        exact hunt_cases ht' (by unfold STRIDE; omega)
      · rw [hright, some_bind]
        exact .inr rfl
    · rw [hleft, some_bind]
      exact .inr rfl
  · exact .inl rfl
  termination_by (deltaBound - delta).toNat
  decreasing_by
    simp only [deltaBound, STRIDE] at *
    omega

/-- **A time of the right kind is found**, where daylight time is an hour ahead. -/
theorem agree_eq (hhour : dst.utoff = std.utoff + 3600) {t' : Int} {ty' : LocalType} {tm' : Tm}
    (h' : Shown z t' ty' tm') (hlocal : ofTm tm' = ofTm tm) :
    agree z (.of tm) t' tm' = some (some (t, tm)) := by
  have hof := h.ofTm
  have hof' := h'.ofTm
  unfold agree
  split
  · next hdiffer =>
    rcases hunt_cases hz h h'.small (show 0 ≤ STRIDE by decide) with hhunt | hhunt
    · rw [hhunt, some_bind]
      -- the last resort is the hour between the two types
      have hdifference : t' + 3600 * ((if tm.isdst = 0 then 1 else 0) -
          (if tm'.isdst = 0 then 1 else 0)) = t := by
        obtain ⟨hstd, hdst⟩ := hz.isdst
        have hne : ty ≠ ty' := by
          rintro rfl
          exact (not_isdstDiffer_iff h h').2 rfl hdiffer
        rw [h.isdst, h'.isdst]
        rcases hz.type_cases h with rfl | rfl <;> rcases hz.type_cases h' with rfl | rfl
        · exact absurd rfl hne
        · simp only [hstd, hdst, Bool.false_eq_true, if_true, if_false, one_ne_zero]
          omega
        · simp only [hstd, hdst, Bool.false_eq_true, if_true, if_false, one_ne_zero]
          omega
        · exact absurd rfl hne
      have hsmall := h.small
      have hmoved : I64.checked (t' + 3600 * ((if tm.isdst = 0 then 1 else 0) -
          (if tm'.isdst = 0 then 1 else 0))) = some t := by
        rw [hdifference]
        exact ranged_eq (by omega) (by omega)
      show (I64.checked (t' + 3600 * ((if tm.isdst = 0 then 1 else 0) -
        (if tm'.isdst = 0 then 1 else 0))) >>= _) = _
      rw [hmoved, some_bind, h.shown, some_bind]
      rfl
    · rw [hhunt, some_bind]
  · next hagree =>
    have hty := hz.type_eq h h' ((not_isdstDiffer_iff h h').1 hagree)
    obtain rfl : t' = t := by
      rw [hty] at hof
      omega
    rw [(h.unique h' rfl).2]

end Search

/-! ## `mktime` -/

theorem leapyear_eq (year : Int) : leapyear (year - 1900) = Gregorian.isLeap year := by
  rw [Bool.eq_iff_iff, isLeap_iff]
  simp only [leapyear, Bool.and_eq_true, Bool.or_eq_true, beq_iff_eq, bne_iff_ne, ne_eq,
    ← Int.dvd_iff_tmod_eq_zero]
  by_cases hdvd : (100 : Int) ∣ year - 1900
  · obtain ⟨k, hk⟩ := hdvd
    rw [hk, Int.mul_tdiv_cancel_left k (by decide)]
    omega
  · omega

theorem monYday_eq (year : Int) {month : Int} (hlo : 1 ≤ month) (hhi : month ≤ 12) :
    (monYday (leapyear (year - 1900)))[(month - 1).toNat]? =
      some (Gregorian.monthsLength year (month - 1).toNat) := by
  rw [leapyear_eq]
  obtain ⟨k, rfl, hk⟩ : ∃ k : Nat, month = k + 1 ∧ k < 12 := ⟨(month - 1).toNat, by omega, by omega⟩
  rw [show ((k : Int) + 1 - 1).toNat = k by omega]
  cases hleap : Gregorian.isLeap year <;> interval_cases k <;>
    simp [monYday, Gregorian.monthsLength, Gregorian.monthLength, hleap]

theorem exists_before (h : breakDown .linux z t = some (some tm)) :
    ∃ before, (monYday (leapyear tm.year))[tm.mon.toNat]? = some before ∧
      before - 1 + tm.mday = tm.yday ∧ (0 ≤ tm.mon ∧ tm.mon < 12) ∧
      -2 ^ 31 ≤ tm.year ∧ tm.year ≤ 2 ^ 31 := by
  obtain ⟨ty, year, month, day, -, -, -, hvalid, hnumber, hyear, rfl⟩ := breakDown_inv h
  have hlo := hvalid.month_pos
  have hhi := hvalid.month_le
  unfold I32.Holds at hyear
  refine ⟨_, monYday_eq year hlo hhi, ?_, ?_, ?_⟩
  · unfold numberOf at hnumber
    simp only [tmOf]
    omega
  · simp only [tmOf]
    omega
  · simp only [tmOf]
    omega

theorem mktime_found {tp tm' : Tm} {offset before t0 t' : Int} (hmon : 0 ≤ tp.mon ∧ tp.mon < 12)
    (hyear : -2 ^ 31 ≤ tp.year ∧ tp.year ≤ 2 ^ 31) (hsec : 0 ≤ tp.sec ∧ tp.sec ≤ 59)
    (hbefore : (monYday (leapyear tp.year))[tp.mon.toNat]? = some before)
    (hyday : before - 1 + tp.mday = tp.yday)
    (ht0 : ydhmsDiff tp.year tp.yday tp.hour tp.min tp.sec 70 0 0 0
    ((-offset).bmod (2 ^ 32)) = some t0)
    (hprobe : probe z (.of tp) 6 t0 t0 t0 false = some (some (true, t', tm')))
    (hagree : agree z (.of tp) t' tm' = some (some (t, tm))) (heq : tp.sec = tm.sec) :
    mktime z tp offset = some (some t, tm, (t - t0 - (-offset).bmod (2 ^ 32)).bmod (2 ^ 64)) := by
  unfold Request.of at hprobe hagree
  unfold mktime
  dsimp only
  rw [Int.tmod_eq_of_lt hmon.1 hmon.2, Int.tdiv_eq_zero_of_lt hmon.1 hmon.2, if_neg (by omega),
    ranged_bind (by omega) (by omega), ranged_bind (by omega) (by omega),
      Int.sub_zero, Int.add_zero,
    Int.mul_zero, Int.add_zero, hbefore, some_bind, hyday,
    show max 0 (min tp.sec 59) = tp.sec by omega, ht0, some_bind, hprobe, some_bind]
  dsimp only
  rw [if_pos rfl, hagree, some_bind]
  exact if_pos heq

theorem mktime_shown (hz : TwoTypes z std dst) (h : Shown z t ty tm)
    (hhour : dst.utoff = std.utoff + 3600) (hstd : ∃ ty' tm', Shown z (ofTm tm - std.utoff) ty' tm')
    (hdst : ∃ ty' tm', Shown z (ofTm tm - dst.utoff) ty' tm') (offset : Int) :
    ∃ offset', mktime z tm offset = some (some t, tm, offset') := by
  obtain ⟨before, hbefore, hyday, hmon, hyear⟩ := exists_before h.shown
  obtain ⟨guess, hguess, hlo, hhi⟩ : ∃ guess, guess = (-offset).bmod (2 ^ 32) ∧ -2 ^ 31 ≤ guess ∧
      guess < 2 ^ 31 :=
    ⟨_, rfl, Int.le_bmod (by decide), Int.bmod_lt (by decide)⟩
  have hsec := h.fits.sec
  have hmin := h.fits.min
  have hhours := h.fits.hour
  have hlocal := h.ofTm
  have hsmall := h.small
  have hutoff := hz.utoff_bound h
  have ht0 : ydhmsDiff tm.year tm.yday tm.hour tm.min tm.sec 70 0 0 0 guess =
      some (ofTm tm - guess) := by
    rw [ydhmsDiff_eq h.fits.year (by omega) h.fits.yday (by omega) (by omega) (by omega) (by omega)
      (by omega) (by omega) (by omega)]
    congr 2
    simp [localOf, yearStart]
  obtain ⟨t', ty', tm', hprobe, h', hfound⟩ :=
    probe_found hz h hstd hdst (show (ofTm tm - guess).natAbs ≤ 2 ^ 56 + 2 ^ 40 by omega)
  rw [hguess] at ht0 hprobe
  exact ⟨_, mktime_found hmon hyear (by omega) hbefore hyday ht0 hprobe
    (agree_eq hz h hhour h' hfound)
    rfl⟩

theorem mktime_none {z : Zone} {tp tp' : Tm} {offset offset' : Int}
    (h : mktime z tp offset = some (none, tp', offset')) : tp' = tp := by
  obtain ⟨years, -, h⟩ := Option.bind_eq_some_iff.mp h
  obtain ⟨year, -, h⟩ := Option.bind_eq_some_iff.mp h
  obtain ⟨before, -, h⟩ := Option.bind_eq_some_iff.mp h
  obtain ⟨t0, -, h⟩ := Option.bind_eq_some_iff.mp h
  obtain ⟨_ | ⟨exact, t, tm⟩, -, h⟩ := Option.bind_eq_some_iff.mp h
  · cases h
    rfl
  obtain ⟨_ | ⟨t, tm⟩, h⟩ : ∃ found : Option (Int × Tm), _ := by
    dsimp only at h
    split at h
    all_goals exact (Option.bind_eq_some_iff.mp h).imp fun _ h => h.2
  · cases h
    rfl
  dsimp only at h
  split at h
  · cases h
  split at h
  · cases h
    rfl
  obtain ⟨_ | tm, -, h⟩ := Option.bind_eq_some_iff.mp h
  · cases h
    rfl
  · cases h

theorem twoTypes_fromRule {r : Rule} {start end_ : Change} (hr : r.Wf)
    (hdst : r.dst = some (dst, start, end_)) : TwoTypes (.fromRule r) r.std dst where
  cases t ht := by
    obtain ⟨year, -, hat⟩ := Rule.at_eq .linux hr ht hdst
    have hzone : Zone.at_ .linux (.fromRule r) t = r.at_ .linux t := rfl
    rw [hzone, hat]
    split
    · exact .inr rfl
    · exact .inl rfl
  isdst := ⟨hr.isdst.1, hr.isdst.2 _ hdst⟩
  std_bound := by
    have := hr.std
    omega
  dst_bound := by
    have := (hr.dst _ _ _ hdst).1
    omega

/-- **`mktime` inverts `localtime`** where daylight time is an hour ahead and the times an hour
around have a year that fits, whatever offset the last call left. A call that fails leaves the
caller's time. -/
theorem mktime_inverts {s : List UInt8} {r : Rule} {dst : LocalType} {start end_ : Change}
    (hparse : parsePosix s = .ok r) (hdst : r.dst = some (dst, start, end_))
    (hhour : dst.utoff = r.std.utoff + 3600) :
    (∀ t tm, breakDown .linux (.fromRule r) t = some (some tm) →
      (∃ before, breakDown .linux (.fromRule r) (t - 3600) = some (some before)) →
      (∃ after, breakDown .linux (.fromRule r) (t + 3600) = some (some after)) →
      ∀ offset, ∃ offset', mktime (.fromRule r) tm offset = some (some t, tm, offset')) ∧
    ∀ tp offset tp' offset',
      mktime (.fromRule r) tp offset = some (none, tp', offset') → tp' = tp := by
  refine ⟨fun t tm htm hbefore hafter offset => ?_, fun _ _ _ _ => mktime_none⟩
  have hz := twoTypes_fromRule (parsePosix_wf hparse) hdst
  obtain ⟨ty, h⟩ := exists_shown htm
  obtain ⟨before, hbefore⟩ := hbefore
  obtain ⟨after, hafter⟩ := hafter
  have hof := h.ofTm
  -- the local time taken by either offset is `t` or one of its neighbours
  rcases hz.type_cases h with rfl | rfl
  · have hother : ofTm tm - dst.utoff = t - 3600 := by omega
    have hself : ofTm tm - r.std.utoff = t := by omega
    exact mktime_shown hz h hhour ⟨_, _, hself ▸ h⟩
      (hother ▸ (exists_shown hbefore).imp fun _ h => ⟨_, h⟩) offset
  · have hother : ofTm tm - r.std.utoff = t + 3600 := by omega
    have hself : ofTm tm - ty.utoff = t := by omega
    exact mktime_shown hz h hhour (hother ▸ (exists_shown hafter).imp fun _ h => ⟨_, h⟩)
      ⟨_, _, hself ▸ h⟩ offset

/-- The rule of `EST5EDT,M3.2.0,M11.1.0`. -/
def eastern : Rule :=
  ⟨⟨-18000, false, [69, 83, 84]⟩,
    some (⟨-14400, true, [69, 68, 84]⟩, (.month 3 2 0, 7200), (.month 11 1 0, 7200))⟩

theorem mktime_inverts_eastern :
    breakDown .linux (.fromRule eastern) 1000000000 =
      some (some ⟨40, 46, 21, 8, 8, 101, 6, 250, 1, -14400, [69, 68, 84]⟩) ∧
    ∃ offset, mktime (.fromRule eastern) ⟨40, 46, 21, 8, 8, 101, 6, 250, 1,
      -14400, [69, 68, 84]⟩ 0 =
      some (some 1000000000, ⟨40, 46, 21, 8, 8, 101, 6, 250, 1, -14400, [69, 68, 84]⟩, offset) := by
  have hshown : breakDown .linux (.fromRule eastern) 1000000000 =
      some (some ⟨40, 46, 21, 8, 8, 101, 6, 250, 1, -14400, [69, 68, 84]⟩) := by
    decide +kernel
  have hparse : parsePosix [69, 83, 84, 53, 69, 68, 84, 44, 77, 51, 46, 50, 46, 48, 44, 77, 49,
      49, 46, 49, 46, 48] = .ok eastern := by
    decide +kernel
  have hbefore : breakDown .linux (.fromRule eastern) (1000000000 - 3600) =
      some (some ⟨40, 46, 20, 8, 8, 101, 6, 250, 1, -14400, [69, 68, 84]⟩) := by
    decide +kernel
  have hafter : breakDown .linux (.fromRule eastern) (1000000000 + 3600) =
      some (some ⟨40, 46, 22, 8, 8, 101, 6, 250, 1, -14400, [69, 68, 84]⟩) := by
    decide +kernel
  exact ⟨hshown, (mktime_inverts hparse rfl rfl).1 _ _ hshown ⟨_, hbefore⟩ ⟨_, hafter⟩ 0⟩

/-! ## Where it misses -/

/-- The rule of `AAA-1BBB0,J1/2,J1/5`: an hour behind for a few hours of each year. -/
def brief : Rule :=
  ⟨⟨3600, false, [65, 65, 65]⟩, some (⟨0, true, [66, 66, 66]⟩,
    (.julian 1, 7200), (.julian 1, 18000))⟩

def briefTm : Tm := ⟨0, 0, 1, 1, 0, 70, 4, 0, 1, 0, [66, 66, 66]⟩

theorem parse_brief :
    parsePosix [65, 65, 65, 45, 49, 66, 66, 66, 48, 44, 74, 49, 47, 50, 44, 74, 49, 47, 53] =
      .ok brief := by
  decide +kernel

theorem brief_change {year time utoff : Int} (hyear : year < 1978) (htime : 0 ≤ time - utoff)
    (htime' : time - utoff ≤ 18000) :
    changeAt .linux year (.julian 1, time) utoff =
      (if year ≤ 1970 then 0 else yearStart year * 86400) + (time - utoff) := by
  have hnumber : (Day.julian 1).number year = yearStart year := by simp [Day.number]
  have hlast := Gregorian.yearStart_strictMono hyear
  have hyear1978 : yearStart 1978 = 2922 := by decide
  simp only [changeAt, hnumber, I64.saturate, true_and]
  split
  · omega
  · next hlater =>
    have hfirst := Gregorian.yearStart_strictMono (not_le.1 hlater)
    have hyear1970 : yearStart 1970 = 0 := by decide
    omega

theorem brief_at_stride {k : Int} (hk : k.natAbs ≤ 382) :
    brief.at_ .linux (STRIDE * k) = some brief.std := by
  unfold STRIDE
  have hholds : I64.Holds (601200 * k) := by
    unfold I64.Holds
    omega
  obtain ⟨year, hyear, hat⟩ := Rule.at_eq .linux (parsePosix_wf parse_brief) hholds rfl
  have hlast : year < 1978 := by
    have hyear1978 : yearStart 1978 = 2922 := by decide
    exact Gregorian.yearStart_strictMono.lt_iff_lt.1 (by omega)
  rw [hat, if_neg]
  show ¬ inDst (changeAt .linux year (.julian 1, 7200) 3600)
    (changeAt .linux year (.julian 1, 18000) 0) _
  rw [brief_change hlast (by decide) (by decide), brief_change hlast (by decide) (by decide)]
  unfold inDst
  by_cases hfirst : year ≤ 1970
  · rw [if_pos hfirst, if_pos (by omega)]
    omega
  · rw [if_neg hfirst, if_pos (by omega)]
    interval_cases year <;> simp only [yearStart] <;> omega

theorem huntAt_missed (hz : TwoTypes z std dst) {r : Request} {ot : Int} (hot : ot.natAbs ≤ 2 ^ 55)
    (hty : z.at_ .linux ot = some ty) (hdiffer : isdstDiffer r.isdst (if ty.isdst then 1 else 0)) :
    huntAt z r (some ot) = some .missed := by
  obtain ⟨ty', tm', hshown⟩ := hz.exists_shown_of_small (t := ot) (by omega)
  obtain rfl : ty = ty' := Option.some.inj (hty.symm.trans hshown.type)
  rw [← hshown.isdst] at hdiffer
  unfold huntAt
  dsimp only
  rw [hshown.rangedConvert, some_bind]
  dsimp only
  rw [if_pos hdiffer]

theorem hunt_missed (hz : TwoTypes z std dst) {r : Request}
    (hty : ∀ k : Int, k.natAbs ≤ 382 → z.at_ .linux (STRIDE * k) = some ty)
    (hdiffer : isdstDiffer r.isdst (if ty.isdst then 1 else 0)) (k : Nat) :
    hunt z r 0 (STRIDE * k) = some .missed := by
  rw [hunt]
  split
  · next hlt =>
    have hk : k < 382 := by
      unfold deltaBound STRIDE at hlt
      omega
    have hright := hty k (by omega)
    have hleft := hty (-k) (by omega)
    unfold STRIDE at hleft hright ⊢
    rw [show I64.add 0 _ = some (601200 * -(k : Int)) from
      (ranged_eq (by omega) (by omega)).trans (by congr 1; omega)]
    rw [show I64.add 0 _ = some (601200 * (k : Int)) from
      (ranged_eq (by omega) (by omega)).trans (by congr 1; omega)]
    rw [huntAt_missed hz (by omega) hleft hdiffer, some_bind]
    rw [huntAt_missed hz (by omega) hright hdiffer, some_bind]
    exact hunt_missed hz hty hdiffer (k + 1)
  · rfl
termination_by 382 - k

/-- The rule of `AAA0BBB,J365/23:30,J365/24`: standard time for half an hour of each year. -/
def lastDay : Rule :=
  ⟨⟨0, false, [65, 65, 65]⟩,
    some (⟨3600, true, [66, 66, 66]⟩, (.julian 365, 84600), (.julian 365, 86400))⟩

def lastDayTm : Tm := ⟨0, 45, 23, 31, 11, 2 ^ 31 - 1, 3, 364, 1, 3600, [66, 66, 66]⟩

/-- **Daylight time that is behind and brief is missed**: no stride finds it again, and the last
resort goes back an hour more. A call that fails once it has found a time has moved the remembered
offset. And in the last hour of the last year the probes can run out, though daylight time is ahead:
the guess by standard time is past the year, and so is the one made from the time it is cut to. -/
theorem mktime_misses :
    (parsePosix [65, 65, 65, 45, 49, 66, 66, 66, 48, 44, 74, 49, 47, 50, 44, 74, 49, 47, 53] =
        .ok brief ∧ breakDown .linux (.fromRule brief) 3600 = some (some briefTm) ∧
      mktime (.fromRule brief) briefTm (-3600) =
        some (some (-3600), ⟨0, 0, 0, 1, 0, 70, 4, 0, 0, 3600, [65, 65, 65]⟩, -7200) ∧
      mktime (.fromRule brief) ⟨2 ^ 31 - 1, 59, 23, 31, 11, 2 ^ 31 - 1, 0, 0, 0, 0, []⟩ (-7200) =
        some (none, ⟨2 ^ 31 - 1, 59, 23, 31, 11, 2 ^ 31 - 1, 0, 0, 0, 0, []⟩, -3600)) ∧
    parsePosix [65, 65, 65, 48, 66, 66, 66, 44, 74, 51, 54, 53, 47, 50, 51, 58, 51, 48, 44, 74, 51,
        54, 53, 47, 50, 52] = .ok lastDay ∧
      breakDown .linux (.fromRule lastDay) 67768036191672300 = some (some lastDayTm) ∧
      mktime (.fromRule lastDay) lastDayTm 0 = some (none, lastDayTm, 0) := by
  refine ⟨⟨parse_brief, by decide +kernel, ?_, by decide +kernel⟩, by decide +kernel,
    by decide +kernel, by decide +kernel⟩
  have hz := twoTypes_fromRule (parsePosix_wf parse_brief) rfl
  have hagree : agree (.fromRule brief) (.of briefTm) 0
      ⟨0, 0, 1, 1, 0, 70, 4, 0, 0, 3600, [65, 65, 65]⟩ =
        some (some (-3600, ⟨0, 0, 0, 1, 0, 70, 4, 0, 0, 3600, [65, 65, 65]⟩)) := by
    have hhunt := hunt_missed hz (r := .of briefTm) (fun _ => brief_at_stride) (by decide) 1
    unfold agree
    rw [if_pos (by decide), show STRIDE = STRIDE * (1 : Nat) from rfl, hhunt]
    decide +kernel
  have hprobe : probe (.fromRule brief) (.of briefTm) 6 0 0 0 false =
      some (some (true, 0, ⟨0, 0, 1, 1, 0, 70, 4, 0, 0, 3600, [65, 65, 65]⟩)) := by
    decide +kernel
  exact mktime_found (by decide) (by decide) (by decide) rfl rfl (by decide +kernel) hprobe hagree
    rfl

end Snare.Tz.Glibc
