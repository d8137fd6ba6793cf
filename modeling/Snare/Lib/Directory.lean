import Mathlib

/-!
# Directories

A directory lists members under keys, any number of members under one key. It is the list of its
entries, oldest first, and what matters of it is `keysOf`: the keys one member is listed under. Each
operation changes the keys of one member only.
-/

namespace Snare.Directory

variable {K M : Type*} [DecidableEq K] [DecidableEq M]

/-- The keys `m` is listed under, oldest first. -/
def keysOf (d : List (K × M)) (m : M) : List K :=
  d.filterMap fun e => if e.2 = m then some e.1 else none

def add (d : List (K × M)) (k : K) (m : M) : List (K × M) := d ++ [(k, m)]

def addNew (d : List (K × M)) (k : K) (m : M) : List (K × M) := if (k, m) ∈ d then d else add d k m

/-- Takes one entry of `m` under `k` off. -/
def dropFirst (d : List (K × M)) (k : K) (m : M) : List (K × M) := d.erase (k, m)

/-- Takes every entry of `m` under `k` off. -/
def dropAll (d : List (K × M)) (k : K) (m : M) : List (K × M) := d.filter (· ≠ (k, m))

variable {m m' : M}

omit [DecidableEq K] in
theorem mem_keysOf {d : List (K × M)} {k : K} : k ∈ keysOf d m ↔ (k, m) ∈ d := by
  unfold keysOf
  rw [List.mem_filterMap]
  constructor
  · rintro ⟨⟨k', m'⟩, he, hk⟩
    split at hk
    · rename_i hm
      cases hm
      cases hk
      exact he
    · cases hk
  · intro he
    exact ⟨(k, m), he, if_pos rfl⟩

omit [DecidableEq K] in
@[simp] theorem keysOf_add_self (d : List (K × M)) (k : K) (m : M) :
    keysOf (add d k m) m = keysOf d m ++ [k] := by
  simp [keysOf, add]

omit [DecidableEq K] in
theorem keysOf_add_of_ne (d : List (K × M)) (k : K) (h : m' ≠ m) :
    keysOf (add d k m) m' = keysOf d m' := by
  simp [keysOf, add, h.symm]

theorem keysOf_addNew_self {d : List (K × M)} {k : K} (h : k ∉ keysOf d m) :
    keysOf (addNew d k m) m = keysOf d m ++ [k] := by
  rw [mem_keysOf] at h
  rw [addNew, if_neg h, keysOf_add_self]

theorem keysOf_addNew_of_ne (d : List (K × M)) (k : K) (h : m' ≠ m) :
    keysOf (addNew d k m) m' = keysOf d m' := by
  unfold addNew
  split
  · rfl
  · exact keysOf_add_of_ne d k h

theorem keysOf_dropFirst_self (d : List (K × M)) (k : K) (m : M) :
    keysOf (dropFirst d k m) m = (keysOf d m).erase k := by
  unfold dropFirst keysOf
  induction d with
  | nil => rfl
  | cons e d ih =>
    obtain ⟨k', m'⟩ := e
    by_cases hm : m' = m
    · by_cases hk : k' = k
      · simp [hm, hk]
      · simp [hm, hk, ih]
    · have hne : (k', m') ≠ (k, m) := fun h => hm (Prod.mk.inj h).2
      simp [hm, List.erase_cons_tail, hne, ih]

theorem keysOf_dropFirst_of_ne (d : List (K × M)) (k : K) (h : m' ≠ m) :
    keysOf (dropFirst d k m) m' = keysOf d m' := by
  unfold dropFirst keysOf
  induction d with
  | nil => rfl
  | cons e d ih =>
    by_cases he : e = (k, m)
    · simp [he, h.symm]
    · simp only [List.erase_cons_tail, beq_iff_eq, he, not_false_eq_true, List.filterMap_cons, ih]

theorem keysOf_dropAll_self (d : List (K × M)) (k : K) (m : M) :
    keysOf (dropAll d k m) m = (keysOf d m).filter (· ≠ k) := by
  unfold dropAll keysOf
  induction d with
  | nil => rfl
  | cons e d ih =>
    obtain ⟨k', m'⟩ := e
    by_cases hm : m' = m
    · by_cases hk : k' = k
      · simpa [hm, hk] using ih
      · simpa [hm, hk] using ih
    · simpa [hm] using ih

theorem keysOf_dropAll_of_ne (d : List (K × M)) (k : K) (h : m' ≠ m) :
    keysOf (dropAll d k m) m' = keysOf d m' := by
  unfold dropAll keysOf
  induction d with
  | nil => rfl
  | cons e d ih =>
    by_cases he : e = (k, m)
    · simpa [he, h.symm] using ih
    · simp only [List.filter_cons_of_pos, ne_eq, he, not_false_eq_true, decide_true,
        List.filterMap_cons, ih]

end Snare.Directory
