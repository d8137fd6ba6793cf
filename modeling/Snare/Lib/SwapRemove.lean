import Mathlib

/-!
# Removing an element by swapping the last one in

`swapRemove l i` takes out the element at `i` and puts the last one in its place. The rest stays
where it is (`getElem?_swapRemove`), and up to order the element is all that went
(`swapRemove_perm`).
-/

namespace Snare

variable {α : Type*}

/-- Removes the element at `i`, the last one taking its place. -/
def swapRemove (l : List α) (i : Nat) : List α :=
  match l.getLast? with
  | none => []
  | some last => (l.set i last).dropLast

theorem getElem?_swapRemove {l : List α} {i : Nat} (hi : i < l.length) (j : Nat) :
    (swapRemove l i)[j]? =
      if j < l.length - 1 then if j = i then l[l.length - 1]? else l[j]? else none := by
  unfold swapRemove
  split
  · next h => simp [List.getLast?_eq_none_iff.mp h] at hi
  · next last h =>
    rw [List.getLast?_eq_getElem?] at h
    rw [List.getElem?_dropLast, List.length_set]
    split
    · next hj =>
      rw [List.getElem?_set]
      by_cases hji : j = i
      · simp [hji, h, hi]
      · rw [if_neg (Ne.symm hji), if_neg hji]
    · rfl

theorem map_swapRemove {β : Type*} (f : α → β) (l : List α) (i : Nat) :
    (swapRemove l i).map f = swapRemove (l.map f) i := by
  unfold swapRemove
  rw [List.getLast?_map]
  cases l.getLast? with
  | none => rfl
  | some last => simp [List.map_dropLast, List.map_set]

theorem swapRemove_perm {l : List α} {i : Nat} {a : α} (h : l[i]? = some a) :
    l.Perm (a :: swapRemove l i) := by
  obtain ⟨hi, rfl⟩ := List.getElem?_eq_some_iff.mp h
  have hne : l ≠ [] := List.ne_nil_of_length_pos (by omega)
  obtain ⟨init, last, rfl⟩ : ∃ init last, l = init ++ [last] :=
    ⟨l.dropLast, l.getLast hne, (List.dropLast_append_getLast hne).symm⟩
  simp only [swapRemove, List.getLast?_append, List.getLast?_singleton, Option.some_or]
  rcases Nat.lt_or_ge i init.length with h | h
  · rw [List.set_append_left _ _ h, List.dropLast_concat, List.getElem_append_left h]
    have hset : (init.set i last).Perm (last :: init.eraseIdx i) :=
      List.set_perm_cons_eraseIdx h last
    have hinit : init.Perm (init[i] :: init.eraseIdx i) := (List.getElem_cons_eraseIdx_perm h).symm
    calc (init ++ [last]).Perm (last :: init) := List.perm_append_singleton _ _
      _ |>.Perm (last :: init[i] :: init.eraseIdx i) := hinit.cons last
      _ |>.Perm (init[i] :: last :: init.eraseIdx i) := List.Perm.swap _ _ _
      _ |>.Perm (init[i] :: init.set i last) := hset.symm.cons _
  · have hi' : i = init.length := by simp at hi; omega
    subst hi'
    simp

end Snare
