import Mathlib

/-!
# Counting the entries of a table

`Nat.count` of a table `f : ℕ → α` whose entries change one at a time, and the sum of what its
entries weigh.
-/

namespace Snare.Counting

variable {α : Type*} (p : α → Prop) [DecidablePred p] {f : ℕ → α} {n i : ℕ}

theorem count_update (hi : i < n) (v : α) :
    n.count (fun j => p (Function.update f i v j)) + (if p (f i) then 1 else 0) =
      n.count (fun j => p (f j)) + (if p v then 1 else 0) := by
  induction n with
  | zero => exact absurd hi (Nat.not_lt_zero i)
  | succ n ih =>
    rw [Nat.count_succ, Nat.count_succ]
    by_cases hn : i = n
    · subst hn
      -- the entries below are as they were
      have hbelow : ∀ m ≤ i, m.count (fun j => p (Function.update f i v j)) =
          m.count (fun j => p (f j)) := by
        intro m hm
        induction m with
        | zero => rfl
        | succ m ihm =>
          rw [Nat.count_succ, Nat.count_succ, ihm (by omega),
            Function.update_of_ne (by omega : m ≠ i)]
      rw [hbelow i le_rfl, Function.update_self]
      omega
    · rw [Function.update_of_ne (Ne.symm hn)]
      omega

theorem count_pos (hi : i < n) (h : p (f i)) : 0 < n.count fun j => p (f j) :=
  lt_of_le_of_lt (Nat.zero_le _) (Nat.count_strict_mono h hi)

end Snare.Counting
