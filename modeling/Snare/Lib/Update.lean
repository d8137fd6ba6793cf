import Mathlib

/-!
# Tables with entries changed

What is read from a table with one entry changed is the new entry, or an old one (`of_update_eq`).
A table filled from a list, each item changing the entry of its key, holds what an item gives at the
item's key (`foldl_update_of_mem`), and is as it was elsewhere.
-/

namespace Snare.Update

section

variable {α β γ : Type*} [DecidableEq α] {f : α → β} {k i : α} {v b : β}

theorem of_apply_update_eq {g : β → γ} {c : γ} (h : g (Function.update f k v i) = c) :
    i = k ∧ g v = c ∨ i ≠ k ∧ g (f i) = c := by
  rw [Function.update_apply] at h
  split at h
  · exact .inl ⟨‹_›, h⟩
  · exact .inr ⟨‹_›, h⟩

theorem of_update_eq (h : Function.update f k v i = b) : i = k ∧ v = b ∨ i ≠ k ∧ f i = b :=
  of_apply_update_eq (g := id) h

end

variable {α β γ : Type*} [DecidableEq α] {x : α} {l : List γ} {w : γ → α} {g : γ → β}

theorem foldl_update_of_forall_ne (h : ∀ e ∈ l, w e ≠ x) (f : α → β) :
    l.foldl (fun f e => Function.update f (w e) (g e)) f x = f x := by
  induction l generalizing f with
  | nil => rfl
  | cons e l ih =>
    rw [List.foldl_cons, ih fun e' he' => h e' (List.mem_cons_of_mem e he')]
    exact Function.update_of_ne (h e List.mem_cons_self).symm _ _

theorem foldl_update_of_mem {e : γ} (he : e ∈ l)
    (hinj : ∀ e' ∈ l, w e' = w e → e' = e) (f : α → β) :
    l.foldl (fun f e => Function.update f (w e) (g e)) f (w e) = g e := by
  induction l generalizing f with
  | nil => exact absurd he List.not_mem_nil
  | cons e' l ih =>
    have hinj' := fun e'' he'' => hinj e'' (List.mem_cons_of_mem e' he'')
    by_cases hl : e ∈ l
    · exact ih hl hinj' _
    · -- no later item has the same key
      obtain rfl : e = e' := (List.mem_cons.mp he).resolve_right hl
      have hlast : ∀ e'' ∈ l, w e'' ≠ w e := fun e'' he'' heq => hl (hinj' e'' he'' heq ▸ he'')
      rw [List.foldl_cons, foldl_update_of_forall_ne hlast]
      exact Function.update_self _ _ _

end Snare.Update
