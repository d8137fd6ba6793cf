import Mathlib

/-!
# Checked signed arithmetic

A signed machine integer is an `Int`, and an operation whose result its type does not hold has no
value: `none` stands for the overflow a checked build stops at. A computation that returns `some`
has therefore kept every intermediate result within its type.
-/

namespace Snare

/-- `x`, where a type that holds `lo` up to `hi` holds it. -/
def ranged (lo hi x : Int) : Option Int :=
  if lo ≤ x ∧ x ≤ hi then some x else none

section
variable {lo hi x : Int}

theorem ranged_eq (hlo : lo ≤ x) (hhi : x ≤ hi) : ranged lo hi x = some x :=
  if_pos ⟨hlo, hhi⟩

theorem some_bind {α β : Type} (x : α) (f : α → Option β) : (some x >>= f) = f x := rfl

theorem ranged_bind {α : Type} {f : Int → Option α} (hlo : lo ≤ x) (hhi : x ≤ hi) :
    (ranged lo hi x >>= f) = f x := by
  rw [ranged_eq hlo hhi, some_bind]

end

namespace I64

variable (x : Int)

/-- The values of an `i64`. -/
def Holds : Prop := -9223372036854775808 ≤ x ∧ x ≤ 9223372036854775807

instance (x : Int) : Decidable (Holds x) := by unfold Holds; infer_instance

abbrev checked : Option Int := ranged (-9223372036854775808) 9223372036854775807 x

variable (a b : Int)

abbrev add : Option Int := checked (a + b)

abbrev sub : Option Int := checked (a - b)

abbrev mul : Option Int := checked (a * b)

def saturate : Int := max (-9223372036854775808) (min x 9223372036854775807)

end I64

namespace I32

/-- The values of an `i32`. -/
def Holds (x : Int) : Prop := -2147483648 ≤ x ∧ x ≤ 2147483647

instance (x : Int) : Decidable (Holds x) := by unfold Holds; infer_instance

abbrev checked (x : Int) : Option Int := ranged (-2147483648) 2147483647 x

variable (a b : Int)

abbrev add : Option Int := checked (a + b)

abbrev sub : Option Int := checked (a - b)

end I32

end Snare
