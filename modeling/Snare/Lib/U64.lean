import Mathlib

/-!
# Saturating 64-bit arithmetic on naturals

A `u64` is a natural at most `u64Max`; the operations that saturate, and a product that may wrap,
are written out on naturals.
-/

namespace Snare

def u64Max : Nat := 2 ^ 64 - 1

variable (a b : Nat)

def satAdd : Nat := min (a + b) u64Max

def satMul : Nat := min (a * b) u64Max

/-- The product as a release build computes it; a debug build panics where it wraps. -/
def wrapMul : Nat := a * b % (u64Max + 1)

theorem wrapMul_eq {a b : Nat} (h : a * b ≤ u64Max) : wrapMul a b = a * b :=
  Nat.mod_eq_of_lt (Nat.lt_succ_of_le h)

theorem satAdd_le : satAdd a b ≤ u64Max := Nat.min_le_right _ _

theorem le_satAdd {a : Nat} (h : a ≤ u64Max) (b : Nat) : a ≤ satAdd a b := by
  simp only [satAdd]
  omega

def divCeil : Nat := if a % b > 0 then a / b + 1 else a / b

theorem div_le_divCeil : a / b ≤ divCeil a b := by
  unfold divCeil
  split <;> omega

theorem divCeil_le_iff {a b : Nat} (hb : 0 < b) (x : Nat) : divCeil a b ≤ x ↔ a ≤ x * b := by
  unfold divCeil
  split
  · rename_i hrest
    rw [Nat.add_one_le_iff, Nat.div_lt_iff_lt_mul hb]
    refine ⟨Nat.le_of_lt, fun hle => Nat.lt_of_le_of_ne hle ?_⟩
    -- a multiple leaves no remainder
    rintro rfl
    rw [Nat.mul_mod_left] at hrest
    exact Nat.lt_irrefl 0 hrest
  · have hmod := Nat.div_add_mod a b
    have hzero : a % b = 0 := by omega
    rw [hzero, Nat.add_zero, Nat.mul_comm] at hmod
    rw [← Nat.mul_le_mul_right_iff hb, hmod]

theorem toNat_le_u64Max (x : UInt64) : x.toNat ≤ u64Max := Nat.le_pred_of_lt x.toNat_lt

end Snare
