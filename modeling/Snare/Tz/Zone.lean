import Snare.Host
import Snare.Tz.Calendar

/-!
# Local time in a zone

A zone of `tz.rs`: the transitions and local time types of a file, and the rule of a TZ string for
what comes after them. Looking up the type in effect at a time, the names around it and the
broken-down time all index those lists and compute in `i64`s; `none` is an index out of range or an
overflow.

* **Any list is searched safely.** A file need not sort its transitions, so `partitionPoint` is the
  search itself, and `partitionPoint_pos` what it still gives: an index to a transition at or before
  the time when the first one is.
* **The calendar is the Gregorian one** (`calendar_gregorian`).
-/

namespace Snare.Tz

open List
open Gregorian (numberOf yearStart yearStart_succ monthLength_le yearLength_le)

/-- A local time type; the abbreviation is its C string's bytes. -/
structure LocalType where
  utoff : Int
  isdst : Bool
  abbr : List UInt8
  deriving DecidableEq

abbrev Change := Day × Int

structure Rule where
  std : LocalType
  dst : Option (LocalType × Change × Change)
  deriving DecidableEq

structure Zone where
  transitions : List Int
  indices : List Nat
  types : List LocalType
  rule : Option Rule

def Zone.fromRule (rule : Rule) : Zone := ⟨[], [], [rule.std], some rule⟩

/-! ## Rules -/

/-- When a rule's day and time fall in `year`, for a rule time in local time of offset `utoff`. -/
def change (os : Host) (year : Int) (at_ : Change) (utoff : Int) : Option Int := do
  let jan1 ← daysFromCivil year 1 1
  let base := if os = .linux ∧ year ≤ 1970 then 0 else jan1
  let days ← I64.sub (← I64.add base (← dayOf year at_.1)) jan1
  let time ← I64.sub at_.2 utoff
  some (I64.saturate (I64.saturate (days * 86400) + time))

/-- Whether daylight time is in effect at `t` in a year with these changes; a start after the end is
daylight time that spans the new year. -/
def inDst (start end_ t : Int) : Prop :=
  if start < end_ then start ≤ t ∧ t < end_ else ¬(end_ ≤ t ∧ t < start)

instance (start end_ t : Int) : Decidable (inDst start end_ t) := by
  unfold inDst
  infer_instance

namespace Rule

def at_ (os : Host) (r : Rule) (t : Int) : Option LocalType :=
  match r.dst with
  | none => some r.std
  | some (dst, start, end_) => do
    let year := (← civilFromDays (t / 86400)).1
    let start ← change os year start r.std.utoff
    let end_ ← change os year end_ dst.utoff
    some (if inDst start end_ t then dst else r.std)

/-- The first change of 1970, before which tzcode has standard time. -/
def firstChange (r : Rule) : Option (Option Int) :=
  match r.dst with
  | none => some none
  | some (dst, start, end_) => do
    let start ← change .macos 1970 start r.std.utoff
    let end_ ← change .macos 1970 end_ dst.utoff
    some (some (min start end_))

end Rule

/-! ## Lookups -/

/-- The halving loop of `slice::partition_point` from `base` over `size` elements; it looks only at
those it lands on, whatever their order. -/
def halve (xs : List Int) (t : Int) (base : Nat) : Nat → Nat
  | 0 => base
  | 1 => base
  | size + 2 =>
    let half := (size + 2) / 2
    let base := if xs.getD (base + half) 0 ≤ t then base + half else base
    halve xs t base (size + 2 - half)
termination_by size => size
decreasing_by omega

/-- `transitions.partition_point(|&x| x <= t)`. -/
def partitionPoint (xs : List Int) (t : Int) : Nat :=
  if xs = [] then 0
  else
    let base := halve xs t 0 xs.length
    if xs.getD base 0 ≤ t then base + 1 else base

namespace Zone

/-- The type of the transition `i`. -/
def typeOf (z : Zone) (i : Nat) : Option LocalType := do
  z.types[← z.indices[i]?]?

/-- What macOS's lookup answers before the first change of a rule alone. -/
def beforeRule (os : Host) (z : Zone) (t : Int) : Option (Option LocalType) :=
  match z.rule with
  | some rule =>
    if os = .macos ∧ z.transitions = [] then do
      match ← rule.firstChange with
      | some first => some (if t < first then some rule.std else none)
      | none => some none
    else some none
  | none => some none

def at_ (os : Host) (z : Zone) (t : Int) : Option LocalType := do
  match ← z.beforeRule os t with
  | some std => some std
  | none =>
    let after := partitionPoint z.transitions t
    match z.rule, decide (after = z.transitions.length) with
    | some rule, true => rule.at_ os t
    | _, _ => if after = 0 then z.types[0]? else z.typeOf (after - 1)

/-- The loop of `glibc_names_at` over the transitions after `t`: the first type of a kind that has
none yet, until both have one. -/
def otherNames (z : Zone) (names : Bool → Option LocalType) :
    List Nat → Option (Bool → Option LocalType)
  | [] => some names
  | j :: rest => do
    let next ← z.typeOf j
    if (names next.isdst).isSome then otherNames z names rest
    else
      let names := Function.update names next.isdst (some next)
      if (names false).isSome ∧ (names true).isSome then some names else otherNames z names rest

/-- `glibc_names_at`: the standard and the daylight type whose names glibc has for `t`. -/
def glibcNamesAt (z : Zone) (t : Int) : Option (LocalType × LocalType) := do
  let first ← z.transitions[0]?
  let fallback ← z.types[0]?
  if t < first then
    let leading := z.types.takeWhile (·.isdst)
    let i := if leading.length = z.types.length then 0 else leading.length
    let std ← z.types[i]?
    let dst := leading.head? <|> (z.types.drop i).find? (·.isdst)
    some (std, dst.getD std)
  else
    let last ← z.transitions[z.transitions.length - 1]?
    match z.rule, decide (last ≤ t) with
    | some rule, true => some (rule.std, rule.dst.elim rule.std (·.1))
    | _, _ =>
      let i := partitionPoint z.transitions t
      if i = 0 then none
      else
        let before ← z.typeOf (i - 1)
        let names ← z.otherNames (Function.update (fun _ => none) before.isdst (some before))
          (List.range' i (z.transitions.length - i))
        let std := ((names false) <|> (names true)).getD fallback
        some (std, (names true).getD std)

/-- `note_conversion` on the names of the standard and the daylight time, by `isdst`. -/
def noteConversion (os : Host) (z : Zone) (t : Int) (names : Bool → List UInt8) :
    Option (Bool → List UInt8) := do
  let ty ← z.at_ os t
  match os with
  | .macos => some (Function.update names ty.isdst ty.abbr)
  | .linux =>
    if z.transitions = [] then some names
    else do
      let (std, dst) ← z.glibcNamesAt t
      some fun isdst => if isdst then dst.abbr else std.abbr

end Zone

/-- A `struct tm`. -/
structure Tm where
  sec : Int
  min : Int
  hour : Int
  mday : Int
  mon : Int
  year : Int
  wday : Int
  yday : Int
  isdst : Int
  gmtoff : Int
  zone : List UInt8
  deriving DecidableEq

/-- `break_down`; the inner `none` is its `false`. -/
def breakDown (os : Host) (z : Zone) (t : Int) : Option (Option Tm) :=
  if 2 ^ 56 ≤ t.natAbs then some none
  else do
    let ty ← z.at_ os t
    match I64.add t ty.utoff with
    | none => some none
    | some local_ =>
      let days := local_ / 86400
      let secs := local_ % 86400
      let (year, month, day) ← civilFromDays days
      let tmYear ← I64.sub year 1900
      if I32.Holds tmYear then
        let mon ← I32.sub month 1
        let wday := (← I64.add days 4) % 7
        let yday ← I64.sub days (← daysFromCivil year 1 1)
        some (some
          { sec := secs.tmod 60, min := (secs.tdiv 60).tmod 60, hour := secs.tdiv 3600,
            mday := day, mon := mon, year := tmYear, wday := wday, yday := yday,
            isdst := if ty.isdst then 1 else 0, gmtoff := ty.utoff, zone := ty.abbr })
      else some none

/-! ## Rules have a type for every time -/

/-- A change as `parse_posix` reads it: a rule time is within 168 hours of midnight. -/
def Change.Wf (c : Change) : Prop := c.1.Named ∧ -604800 < c.2 ∧ c.2 < 604800

/-- A rule as `parse_posix` reads it: an offset of standard time is within 25 hours. -/
structure Rule.Wf (r : Rule) : Prop where
  std : -90000 < r.std.utoff ∧ r.std.utoff < 90000
  dst : ∀ dst start end_, r.dst = some (dst, start, end_) →
    (-93600 < dst.utoff ∧ dst.utoff < 93600) ∧ Change.Wf start ∧ Change.Wf end_
  isdst : r.std.isdst = false ∧ ∀ changes, r.dst = some changes → changes.1.isdst = true

def changeAt (os : Host) (year : Int) (c : Change) (utoff : Int) : Int :=
  let base := if os = .linux ∧ year ≤ 1970 then 0 else yearStart year
  I64.saturate (I64.saturate ((base + c.1.number year - yearStart year) * 86400) +
    (c.2 - utoff))

variable {os : Host}

theorem change_eq {year utoff : Int} {c : Change} (hlo : -2 ^ 40 ≤ year)
    (hhi : year ≤ 2 ^ 40) (hc : c.Wf) (hutoff : -2 ^ 31 ≤ utoff ∧ utoff < 2 ^ 31) :
    change os year c utoff = some (changeAt os year c utoff) := by
  obtain ⟨hday, htime⟩ := hc
  have hstart := yearStart_bounds hlo hhi
  have hnumber := hday.number_mem year
  have hlength := yearLength_le year
  rw [yearStart_succ] at hnumber
  unfold change changeAt
  rw [daysFromCivil_jan1 hlo hhi, some_bind]
  obtain ⟨base, hbase⟩ : ∃ base, base =
    if os = .linux ∧ year ≤ 1970 then 0 else yearStart year := ⟨_, rfl⟩
  rw [← hbase, dayOf_eq hlo hhi hday, some_bind, ranged_bind (by omega) (by omega),
    ranged_bind (by omega) (by omega), ranged_bind (by omega) (by omega)]

variable {t : Int}

theorem exists_year (ht : I64.Holds t) :
    ∃ year month day, civilFromDays (t / 86400) = some (year, month, day) ∧
      (yearStart year ≤ t / 86400 ∧ t / 86400 < yearStart (year + 1)) ∧
      -2 ^ 40 ≤ year ∧ year ≤ 2 ^ 40 := by
  obtain ⟨hlo, hhi⟩ := ht
  obtain ⟨year, month, day, hcivil, hvalid, hnumber⟩ :=
    @civilFromDays_eq (t / 86400) (by omega) (by omega)
  have hyear := year_bounds hvalid hnumber (by omega) (by omega)
  exact ⟨year, month, day, hcivil, hnumber ▸ hvalid.enclosed, by omega, by omega⟩

namespace Rule

variable {r : Rule}

theorem at_eq (os : Host) {t : Int} {dst : LocalType} {start end_ : Change} (hr : r.Wf)
    (ht : I64.Holds t) (hdst : r.dst = some (dst, start, end_)) :
    ∃ year, (yearStart year ≤ t / 86400 ∧ t / 86400 < yearStart (year + 1)) ∧
      r.at_ os t = some (if inDst (changeAt os year start r.std.utoff)
        (changeAt os year end_ dst.utoff) t then dst else r.std) := by
  obtain ⟨hutoff, hstart, hend⟩ := hr.dst dst start end_ hdst
  have hstd := hr.std
  obtain ⟨year, month, day, hcivil, hmem, hlo, hhi⟩ := exists_year ht
  refine ⟨year, hmem, ?_⟩
  unfold Rule.at_
  rw [hdst]
  dsimp only
  rw [hcivil, some_bind]
  rw [change_eq hlo hhi hstart (by omega), some_bind, change_eq hlo hhi hend (by omega), some_bind]

theorem Wf.at_isSome (hr : r.Wf) (os : Host) {t : Int} (ht : I64.Holds t) :
    (r.at_ os t).isSome := by
  cases hdst : r.dst with
  | none =>
    unfold Rule.at_
    rw [hdst]
    rfl
  | some changes =>
    obtain ⟨year, -, heq⟩ := at_eq os hr ht hdst
    rw [heq]
    rfl

theorem Wf.firstChange_isSome (hr : r.Wf) : r.firstChange.isSome := by
  have hstd := hr.std
  unfold firstChange
  split
  · rfl
  · rename_i dst start end_ hdst
    obtain ⟨hutoff, hstart, hend⟩ := hr.dst dst start end_ hdst
    rw [change_eq (by omega) (by omega) hstart (by omega), some_bind,
      change_eq (by omega) (by omega) hend (by omega), some_bind]
    rfl

end Rule

/-! ## Zones have a type, names and a broken-down time for every time -/

theorem halve_lt (xs : List Int) (t : Int) (base size : Nat) (hsize : 0 < size) :
    halve xs t base size < base + size := by
  fun_induction halve xs t base size with
  | case1 => omega
  | case2 => omega
  | case3 base size half base' ih =>
    have hbase : base' ≤ base + half := by
      simp only [base']
      split <;> omega
    omega

theorem partitionPoint_le (xs : List Int) (t : Int) : partitionPoint xs t ≤ xs.length := by
  unfold partitionPoint
  split
  · omega
  · rename_i hne
    have hlt := halve_lt xs t 0 xs.length (length_pos_iff.2 hne)
    dsimp only
    split <;> omega

theorem partitionPoint_pos {xs : List Int} {first : Int} (hfirst : xs[0]? = some first)
    (hle : first ≤ t) : 0 < partitionPoint xs t := by
  have hne : xs ≠ [] := fun hnil => by simp [hnil] at hfirst
  unfold partitionPoint
  rw [if_neg hne]
  dsimp only
  by_cases hbase : halve xs t 0 xs.length = 0
  · rw [hbase, getD_eq_getElem?_getD, hfirst, Option.getD_some, if_pos hle]
    exact Nat.one_pos
  · split <;> omega

structure Zone.Wf (z : Zone) : Prop where
  types : z.types ≠ []
  indices : z.indices.length = z.transitions.length
  index_lt : ∀ i ∈ z.indices, i < z.types.length
  rule : ∀ rule, z.rule = some rule → rule.Wf

namespace Zone

variable {z : Zone}

section

variable (hz : z.Wf)
include hz

theorem Wf.typeOf {i : Nat} (hi : i < z.transitions.length) :
    ∃ ty, z.typeOf i = some ty := by
  obtain ⟨k, hk⟩ : ∃ k, z.indices[i]? = some k :=
    ⟨_, getElem?_eq_getElem (by rw [hz.indices]; exact hi)⟩
  unfold Zone.typeOf
  rw [hk, some_bind]
  exact ⟨_, getElem?_eq_getElem (hz.index_lt k (mem_of_getElem? hk))⟩

theorem Wf.fallback : ∃ ty, z.types[0]? = some ty :=
  ⟨_, getElem?_eq_getElem (length_pos_iff.2 hz.types)⟩

theorem Wf.beforeRule (os : Host) (t : Int) :
    ∃ early, z.beforeRule os t = some early := by
  unfold Zone.beforeRule
  split
  · rename_i rule hrule
    split
    · obtain ⟨first, hfirst⟩ := Option.isSome_iff_exists.1 (hz.rule rule hrule).firstChange_isSome
      rw [hfirst, some_bind]
      cases first <;> exact ⟨_, rfl⟩
    · exact ⟨_, rfl⟩
  · exact ⟨_, rfl⟩

theorem Wf.at_ (os : Host) {t : Int} (ht : I64.Holds t) : ∃ ty, z.at_ os t = some ty := by
  obtain ⟨early, hearly⟩ := hz.beforeRule os t
  unfold Zone.at_
  rw [hearly, some_bind]
  cases early with
  | some std => exact ⟨std, rfl⟩
  | none =>
    dsimp only
    split
    · rename_i rule hrule _
      exact Option.isSome_iff_exists.1 ((hz.rule rule hrule).at_isSome os ht)
    · split
      · exact hz.fallback
      · have hle := partitionPoint_le z.transitions t
        exact hz.typeOf (by omega)

theorem Wf.otherNames (names : Bool → Option LocalType) (js : List Nat)
    (hjs : ∀ j ∈ js, j < z.transitions.length) : ∃ found, z.otherNames names js = some found := by
  induction js generalizing names with
  | nil => exact ⟨names, rfl⟩
  | cons j rest ih =>
    have hrest : ∀ k ∈ rest, k < z.transitions.length := fun k hk => hjs k (mem_cons_of_mem j hk)
    obtain ⟨next, hnext⟩ := hz.typeOf (hjs j mem_cons_self)
    rw [Zone.otherNames, hnext, some_bind]
    dsimp only
    split
    · exact ih names hrest
    · split
      · exact ⟨_, rfl⟩
      · exact ih _ hrest

theorem Wf.glibcNamesAt (hne : z.transitions ≠ []) (t : Int) :
    ∃ names, z.glibcNamesAt t = some names := by
  have hlength := length_pos_iff.2 hne
  obtain ⟨first, hfirst⟩ : ∃ first, z.transitions[0]? = some first :=
    ⟨_, getElem?_eq_getElem hlength⟩
  obtain ⟨last, hlast⟩ : ∃ last, z.transitions[z.transitions.length - 1]? = some last :=
    ⟨_, getElem?_eq_getElem (by omega)⟩
  obtain ⟨fallback, hfallback⟩ := hz.fallback
  unfold Zone.glibcNamesAt
  rw [hfirst, some_bind, hfallback, some_bind]
  split
  · -- before the first transition the types are counted from the start
    have htypes := length_pos_iff.2 hz.types
    have hleading := (takeWhile_sublist (·.isdst) (l := z.types)).length_le
    obtain ⟨std, hstd⟩ : ∃ std, z.types[if (z.types.takeWhile (·.isdst)).length = z.types.length
        then 0 else (z.types.takeWhile (·.isdst)).length]? = some std :=
      ⟨_, getElem?_eq_getElem (by split <;> omega)⟩
    dsimp only
    rw [hstd, some_bind]
    exact ⟨_, rfl⟩
  · rename_i hle
    have hpos := partitionPoint_pos hfirst (not_lt.1 hle)
    have hbound := partitionPoint_le z.transitions t
    rw [hlast, some_bind]
    split
    · exact ⟨_, rfl⟩
    · obtain ⟨before, hbefore⟩ := hz.typeOf (show partitionPoint z.transitions t - 1 < _ by omega)
      rw [if_neg (by omega), hbefore, some_bind]
      obtain ⟨names, hnames⟩ := hz.otherNames
        (Function.update (fun _ => none) before.isdst (some before))
        (List.range' (partitionPoint z.transitions t)
          (z.transitions.length - partitionPoint z.transitions t))
        (fun j hj => by
          rw [mem_range'_1] at hj
          omega)
      rw [hnames, some_bind]
      exact ⟨_, rfl⟩

theorem Wf.noteConversion (os : Host) {t : Int} (ht : I64.Holds t)
    (names : Bool → List UInt8) : ∃ moved, z.noteConversion os t names = some moved := by
  obtain ⟨ty, hty⟩ := hz.at_ os ht
  unfold Zone.noteConversion
  rw [hty, some_bind]
  cases os with
  | macos => exact ⟨_, rfl⟩
  | linux =>
    dsimp only
    split
    · exact ⟨_, rfl⟩
    · rename_i hne
      obtain ⟨found, hfound⟩ := hz.glibcNamesAt hne t
      rw [hfound, some_bind]
      exact ⟨_, rfl⟩

end

end Zone

/-! ## The broken-down time -/

def tmOf (ty : LocalType) (local_ year month day : Int) : Tm where
  sec := local_ % 86400 % 60
  min := local_ % 86400 / 60 % 60
  hour := local_ % 86400 / 3600
  mday := day
  mon := month - 1
  year := year - 1900
  wday := Gregorian.weekday (local_ / 86400)
  yday := local_ / 86400 - yearStart year
  isdst := if ty.isdst then 1 else 0
  gmtoff := ty.utoff
  zone := ty.abbr

variable {z : Zone}

theorem breakDown_eq {ty : LocalType} (ht : t.natAbs < 2 ^ 56)
    (hty : z.at_ os t = some ty) (hlocal : I64.Holds (t + ty.utoff)) :
    ∃ year month day, Gregorian.Valid year month day ∧
      numberOf year month day = (t + ty.utoff) / 86400 ∧
      civilFromDays ((t + ty.utoff) / 86400) = some (year, month, day) ∧
      breakDown os z t = some (if I32.Holds (year - 1900)
        then some (tmOf ty (t + ty.utoff) year month day) else none) := by
  obtain ⟨hlo, hhi⟩ := hlocal
  obtain ⟨year, month, day, hcivil, hvalid, hnumber⟩ :=
    @civilFromDays_eq ((t + ty.utoff) / 86400) (by omega) (by omega)
  have hyear := year_bounds hvalid hnumber (by omega) (by omega)
  have hmonth := hvalid.month_pos
  have hmonth' := hvalid.month_le
  have hstart := yearStart_bounds (show -2 ^ 40 ≤ year by omega) (by omega)
  refine ⟨year, month, day, hvalid, hnumber, hcivil, ?_⟩
  unfold breakDown
  rw [if_neg (by omega), hty, some_bind, show I64.add t ty.utoff = _ from ranged_eq hlo hhi]
  dsimp only
  rw [hcivil, some_bind]
  dsimp only
  rw [ranged_bind (by omega) (by omega)]
  split
  · rw [ranged_bind (by omega) (by omega), ranged_bind (by omega) (by omega),
      daysFromCivil_jan1 (by omega) (by omega), some_bind, ranged_bind (by omega) (by omega)]
    have hsecs : 0 ≤ (t + ty.utoff) % 86400 := by omega
    rw [Int.tmod_eq_emod_of_nonneg hsecs, Int.tdiv_eq_ediv_of_nonneg hsecs,
      Int.tdiv_eq_ediv_of_nonneg hsecs, Int.tmod_eq_emod_of_nonneg (by omega)]
    rfl
  · rfl

theorem breakDown_isSome {ty : LocalType}
    (hty : z.at_ os t = some ty) : ∃ tm, breakDown os z t = some tm := by
  by_cases ht : t.natAbs < 2 ^ 56
  · by_cases hlocal : I64.Holds (t + ty.utoff)
    · obtain ⟨year, month, day, -, -, -, heq⟩ := breakDown_eq ht hty hlocal
      exact ⟨_, heq⟩
    · refine ⟨none, ?_⟩
      unfold breakDown
      rw [if_neg (by omega), hty, some_bind, show I64.add t ty.utoff = none from if_neg hlocal]
  · exact ⟨none, if_pos (by omega)⟩

theorem breakDown_inv {tm : Tm} (h : breakDown os z t = some (some tm)) :
    ∃ ty year month day, t.natAbs < 2 ^ 56 ∧ z.at_ os t = some ty ∧ I64.Holds (t + ty.utoff) ∧
      Gregorian.Valid year month day ∧
      numberOf year month day = (t + ty.utoff) / 86400 ∧ I32.Holds (year - 1900) ∧
      tm = tmOf ty (t + ty.utoff) year month day := by
  by_cases ht : t.natAbs < 2 ^ 56
  case neg =>
    rw [breakDown, if_pos (by omega)] at h
    exact absurd (Option.some.inj h) (by simp)
  cases hty : z.at_ os t with
  | none =>
    rw [breakDown, if_neg (by omega), hty] at h
    cases h
  | some ty =>
    by_cases hlocal : I64.Holds (t + ty.utoff)
    case neg =>
      rw [breakDown, if_neg (by omega), hty, some_bind,
        show I64.add t ty.utoff = none from if_neg hlocal] at h
      exact absurd (Option.some.inj h) (by simp)
    obtain ⟨year, month, day, hvalid, hnumber, -, heq⟩ := breakDown_eq ht hty hlocal
    rw [heq, Option.some.injEq] at h
    split at h
    · rename_i hyear
      exact ⟨ty, year, month, day, ht, rfl, hlocal, hvalid, hnumber, hyear,
        (Option.some.inj h).symm⟩
    · cases h

theorem civil_of_time (ht : I64.Holds t) :
    ∃ year month day, civilFromDays (t / 86400) = some (year, month, day) ∧
      Gregorian.Valid year month day ∧ numberOf year month day = t / 86400 ∧
      daysFromCivil year month day = some (t / 86400) := by
  obtain ⟨hlo, hhi⟩ := ht
  obtain ⟨year, month, day, hcivil, hvalid, hnumber⟩ :=
    @civilFromDays_eq (t / 86400) (by omega) (by omega)
  have hyear := year_bounds hvalid hnumber (by omega) (by omega)
  have hlength := monthLength_le year month
  have hday := hvalid.day_le
  have hday' := hvalid.day_pos
  refine ⟨year, month, day, hcivil, hvalid, hnumber, ?_⟩
  rw [daysFromCivil_eq (by omega) (by omega) hvalid.month_pos hvalid.month_le (by omega) (by omega),
    hnumber]

theorem civil_unique {year month day : Int} (ht : I64.Holds t)
    (hvalid : Gregorian.Valid year month day)
    (hnumber : numberOf year month day = t / 86400) :
    civilFromDays (t / 86400) = some (year, month, day) := by
  obtain ⟨year', month', day', hcivil, hvalid', hnumber', -⟩ := civil_of_time ht
  obtain ⟨rfl, rfl, rfl⟩ := Gregorian.number_injective hvalid hvalid' (hnumber.trans hnumber'.symm)
  exact hcivil

/-- **The calendar is the proleptic Gregorian one.** On every day of an `i64` time the two
conversions are inverse to each other and each date is followed by the next; a broken-down time has
the weekday and the day of the year of its date; and the day of a month rule is the date it asks
for. -/
theorem calendar_gregorian :
    (∀ t, I64.Holds t → ∃ year month day, civilFromDays (t / 86400) = some (year, month, day) ∧
      Gregorian.Valid year month day ∧ daysFromCivil year month day = some (t / 86400)) ∧
    (∀ t year month day, I64.Holds t → Gregorian.Valid year month day →
      Gregorian.numberOf year month day = t / 86400 →
      daysFromCivil year month day = some (t / 86400) ∧
        civilFromDays (t / 86400) = some (year, month, day)) ∧
    (civilFromDays 0 = some (1970, 1, 1) ∧ ∀ t year month day, I64.Holds t → I64.Holds (t + 86400) →
        civilFromDays (t / 86400) = some (year, month, day) →
        civilFromDays (t / 86400 + 1) = some (Gregorian.next year month day)) ∧
    (∀ os z t tm, breakDown os z t = some (some tm) →
      let days := (t + tm.gmtoff) / 86400
      daysFromCivil (tm.year + 1900) (tm.mon + 1) tm.mday = some days ∧
        tm.wday = Gregorian.weekday days ∧
        daysFromCivil (tm.year + 1900) 1 1 = some (days - tm.yday) ∧
        0 ≤ tm.yday ∧ tm.yday < Gregorian.yearLength (tm.year + 1900)) ∧
    (∀ t year month day, I64.Holds t → civilFromDays (t / 86400) = some (year, month, day) →
      ∀ m week weekday : Nat, Day.Named (.month m week weekday) →
      ∃ n k, dayOf year (.month m week weekday) = some n ∧ daysFromCivil year m k = some n ∧
        (1 ≤ k ∧ k ≤ Gregorian.monthLength year m) ∧ Gregorian.weekday n = weekday ∧
        (week < 5 → 7 * (week - 1) < k ∧ k ≤ 7 * week) ∧
        (week = 5 → Gregorian.monthLength year m < k + 7)) := by
  refine ⟨?_, ?_, ⟨by decide +kernel, ?_⟩, ?_, ?_⟩
  · intro t ht
    obtain ⟨year, month, day, hcivil, hvalid, -, hdays⟩ := civil_of_time ht
    exact ⟨year, month, day, hcivil, hvalid, hdays⟩
  · intro t year month day ht hvalid hnumber
    have hcivil := civil_unique ht hvalid hnumber
    obtain ⟨year', month', day', hcivil', -, -, hdays⟩ := civil_of_time ht
    rw [hcivil] at hcivil'
    cases hcivil'
    exact ⟨hdays, hcivil⟩
  · intro t year month day ht ht' hcivil
    obtain ⟨year', month', day', hcivil', hvalid, hnumber, -⟩ := civil_of_time ht
    rw [hcivil] at hcivil'
    cases hcivil'
    obtain ⟨hnext, hsucc⟩ := hvalid.next rfl
    have hday : (t + 86400) / 86400 = t / 86400 + 1 := by omega
    rw [← hday]
    exact civil_unique ht' hnext (by rw [hsucc, hnumber, hday])
  · intro os z t tm htm
    obtain ⟨ty, year, month, day, ht, -, hlocal, hvalid, hnumber, hyear, rfl⟩ := breakDown_inv htm
    have henclosed := hvalid.enclosed
    rw [hnumber, yearStart_succ] at henclosed
    have hmonthly := monthLength_le year month
    obtain ⟨hmonth, hmonth', hday, hday'⟩ := hvalid
    unfold I32.Holds at hyear
    dsimp only [tmOf]
    rw [sub_add_cancel, sub_add_cancel,
      daysFromCivil_eq (by omega) (by omega) hmonth hmonth' (by omega)
      (by omega), hnumber, daysFromCivil_jan1 (by omega) (by omega)]
    exact ⟨rfl, rfl, by rw [sub_sub_cancel], by omega, by omega⟩
  · intro t year month day ht hcivil m week weekday hnamed
    obtain ⟨year', month', day', hcivil', hmem, hlo, hhi⟩ := exists_year ht
    rw [hcivil] at hcivil'
    cases hcivil'
    have hm := hnamed.1
    have hweek := hnamed.2.1
    have hweekday := hnamed.2.2
    have hlength := monthLength_le year m
    obtain ⟨hin, hon, hearly, hlast⟩ :=
      @weekdayIn_spec year m week weekday _ (by omega) (by omega) rfl
    refine ⟨_, 1 + weekdayIn year m week weekday, dayOf_eq hlo hhi hnamed, ?_, by omega, hon,
      by omega, by omega⟩
    rw [daysFromCivil_eq hlo hhi (by omega) (by omega) (by omega) (by omega)]
    simp only [Day.number, numberOf, Option.some.injEq]
    omega

end Snare.Tz
