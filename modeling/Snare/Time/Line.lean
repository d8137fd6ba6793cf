import Snare.Time.Clock

/-!
# When a line reaches a reading

The reading along a line is rounded down (`valueAt`), and the real time at which the line reaches a
reading is rounded up (`realAt`). The two roundings fit: **`Line.reaches_iff`** says that the line
has reached `v` exactly from `realAt v` on.
-/

namespace Snare.Time

namespace Line

variable {l : Line} {v x : Nat}

theorem le_valueAt_iff (hv : v ≤ u64Max) :
    v ≤ l.valueAt x ↔ v ≤ l.anchorV + (x - l.anchorReal) * l.rateQ32 / 2 ^ 32 ∧ v ≤ l.horizon := by
  rw [valueAt, Nat.le_min, Nat.le_min]
  exact ⟨fun h => ⟨h.1.1, h.2⟩, fun h => ⟨⟨h.1, hv⟩, h.2⟩⟩

theorem le_line_iff : v ≤ l.anchorV + (x - l.anchorReal) * l.rateQ32 / 2 ^ 32 ↔
      (v - l.anchorV) * 2 ^ 32 ≤ (x - l.anchorReal) * l.rateQ32 := by
  rw [← Nat.sub_le_iff_le_add', Nat.le_div_iff_mul_le (by decide)]

theorem valueAt_lt (hv : v ≤ u64Max) (hnone : l.realAt v = none) (x : Nat) : l.valueAt x < v := by
  refine Nat.lt_of_not_le fun hle => ?_
  obtain ⟨hline, hhorizon⟩ := (le_valueAt_iff hv).mp hle
  unfold realAt at hnone
  rw [if_neg (Nat.not_lt.mpr hhorizon)] at hnone
  split at hnone
  · cases hnone
  rename_i hanchor
  split at hnone
  · rename_i hrate
    -- a line that stands never leaves its anchor
    rw [hrate, Nat.mul_zero, Nat.zero_div, Nat.add_zero] at hline
    exact hanchor hline
  · cases hnone

theorem le_valueAt_iff_realAt {r : Nat} (hv : v ≤ u64Max) (hr : l.realAt v = some r)
    (hmax : r < u64Max) (hx : l.anchorReal ≤ x) : v ≤ l.valueAt x ↔ r ≤ x := by
  unfold realAt at hr
  split at hr
  · cases hr
  rename_i hhorizon
  rw [le_valueAt_iff hv]
  split at hr
  · rename_i hanchor
    cases hr
    exact ⟨fun _ => hx, fun _ => ⟨Nat.le_add_right_of_le hanchor, Nat.le_of_not_lt hhorizon⟩⟩
  split at hr
  · cases hr
  rename_i hrate
  -- the result is below the largest, so it was not cut off
  have hreal : l.anchorReal + divCeil ((v - l.anchorV) * 2 ^ 32) l.rateQ32 = r := by
    have hmin := Option.some.inj hr
    omega
  calc v ≤ l.anchorV + (x - l.anchorReal) * l.rateQ32 / 2 ^ 32 ∧ v ≤ l.horizon
      ↔ v ≤ l.anchorV + (x - l.anchorReal) * l.rateQ32 / 2 ^ 32 :=
        and_iff_left (Nat.le_of_not_lt hhorizon)
    _ ↔ (v - l.anchorV) * 2 ^ 32 ≤ (x - l.anchorReal) * l.rateQ32 := le_line_iff
    _ ↔ divCeil ((v - l.anchorV) * 2 ^ 32) l.rateQ32 ≤ x - l.anchorReal :=
        (divCeil_le_iff (Nat.pos_of_ne_zero hrate) _).symm
    _ ↔ r ≤ x := by omega

/-- **A line has reached a reading exactly from the real time `realAt` gives on**, and where it
gives none the line never does. -/
theorem reaches_iff (l : Line) (v : UInt64) :
    (∀ r, l.realAt v.toNat = some r → r < u64Max → ∀ x, l.anchorReal ≤ x →
      (v.toNat ≤ l.valueAt x ↔ r ≤ x)) ∧
      (l.realAt v.toNat = none → ∀ x, l.anchorReal ≤ x → l.valueAt x < v.toNat) :=
  ⟨fun _ hr hmax _ hx => le_valueAt_iff_realAt (toNat_le_u64Max v) hr hmax hx,
    fun hnone x _ => valueAt_lt (toNat_le_u64Max v) hnone x⟩

/-- At a third of real time, 10 ns are over after 30 ns and one more, as the rate is rounded down.
-/
theorem reaches_iff_third : (⟨5, 100, 1431655765, u64Max⟩ : Line).realAt 15 = some 131 ∧
      (15 ≤ (⟨5, 100, 1431655765, u64Max⟩ : Line).valueAt 131 ↔ 131 ≤ 131) :=
  have hreal : (⟨5, 100, 1431655765, u64Max⟩ : Line).realAt 15 = some 131 := by decide
  ⟨hreal, (reaches_iff ⟨5, 100, 1431655765, u64Max⟩ 15).1 131 hreal (by decide) 131 (by decide)⟩

end Line

end Snare.Time
