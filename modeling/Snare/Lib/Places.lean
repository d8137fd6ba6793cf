import Mathlib

/-!
# A finite set in a table of places

A fixed table keeps a set by giving each member a place of its own. **`Places ps s`** says the table
`ps` keeps the set `s`; `put` and `take` are what filling and emptying a place do to the set, and
`exists_free` finds a free place while the set is smaller than the table.
-/

namespace Snare

open List

variable {α : Type*} {ps : List (Option α)} {s : Finset α} {a : α} {i : Nat}

/-- The members of `s` have one place each in `ps`, and nothing else has one. -/
structure Places (ps : List (Option α)) (s : Finset α) : Prop where
  mem : ∀ a, some a ∈ ps ↔ a ∈ s
  nodup : ps.reduceOption.Nodup

namespace Places

theorem empty (n : Nat) : Places (List.replicate n (none : Option α)) ∅ where
  mem a := by simp
  nodup := by simp [reduceOption_replicate_none]

theorem cut {p : Option α} (hp : ps[i]? = some p) (q : Option α) :
    ∃ l r, ps = l ++ p :: r ∧ ps.set i q = l ++ q :: r := by
  obtain ⟨hi, rfl⟩ := List.getElem?_eq_some_iff.mp hp
  obtain ⟨l, r, hps, -, hset⟩ : ∃ l r, ps = l ++ ps[i] :: r ∧ l.length = i ∧
      ps.set i q = l ++ q :: r :=
    exists_of_set hi
  exact ⟨l, r, hps, hset⟩

theorem put [DecidableEq α] (h : Places ps s) (hi : ps[i]? = some none) (ha : a ∉ s) :
    Places (ps.set i (some a)) (insert a s) := by
  obtain ⟨l, r, hps, hset⟩ := cut hi (some a)
  have hmem := h.mem
  have hnodup := h.nodup
  rw [hps] at hmem hnodup
  rw [hset]
  constructor
  · intro b
    have := hmem b
    simp only [mem_append, mem_cons, reduceCtorEq, false_or, Option.some.injEq,
      Finset.mem_insert] at this ⊢
    rw [← this]
    tauto
  · simp only [reduceOption_append, reduceOption_cons_of_none,
      reduceOption_cons_of_some] at hnodup ⊢
    rw [nodup_middle, nodup_cons]
    refine ⟨fun hold => ha ((hmem a).mp ?_), hnodup⟩
    simpa [reduceOption_mem_iff] using hold

theorem take [DecidableEq α] (h : Places ps s) (hi : ps[i]? = some (some a)) :
    Places (ps.set i none) (s.erase a) := by
  obtain ⟨l, r, hps, hset⟩ := cut hi none
  have hmem := h.mem
  have hnodup := h.nodup
  rw [hps] at hmem hnodup
  rw [hset]
  simp only [reduceOption_append, reduceOption_cons_of_some] at hnodup
  rw [nodup_middle, nodup_cons] at hnodup
  obtain ⟨hout, hrest⟩ := hnodup
  constructor
  · intro b
    have := hmem b
    simp only [mem_append, mem_cons, reduceCtorEq, false_or, Option.some.injEq,
      Finset.mem_erase] at this ⊢
    rw [← this]
    -- the place that was emptied was the only one of its member
    have hne : some b ∈ l ∨ some b ∈ r → b ≠ a := by
      rintro hb rfl
      exact hout (by simpa [reduceOption_mem_iff] using hb)
    tauto
  · simpa [reduceOption_append] using hrest

theorem exists_free [DecidableEq α] (h : Places ps s) (hcard : s.card < ps.length) : none ∈ ps := by
  by_contra hfull
  have hsome : ∀ p ∈ ps, p.isSome := by
    intro p hp
    cases p with
    | none => exact absurd hp hfull
    | some a => rfl
  have hlen := reduceOption_length_eq_iff.mpr hsome
  have hset : ps.reduceOption.toFinset = s := by
    ext a
    rw [mem_toFinset, reduceOption_mem_iff, h.mem]
  have hcount := toFinset_card_of_nodup h.nodup
  rw [hset] at hcount
  omega

end Places

end Snare
