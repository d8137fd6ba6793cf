import Mathlib

/-!
# Counts of pages in runs

A table of counts by page, all but finitely many zero, kept as runs of pages with one count each.
`total` is the count of a page; runs that are `Apart` give it from one run at most.

* **`Canonical`** runs are sorted and disjoint, none empty or of count zero; `tidy` makes them so
  and leaves every page its count (`canonical_tidy`, `total_tidy`).
* `covered_eq` counts the pages of a range that have a count.
-/

namespace Snare.Spans

structure Span where
  first : Nat
  end_ : Nat
  count : Nat

def Span.at_ (r : Span) (p : Nat) : Nat := if r.first ≤ p ∧ p < r.end_ then r.count else 0

def total (rs : List Span) (p : Nat) : Nat := (rs.map (·.at_ p)).sum

def Apart (a b : Span) : Prop := a.end_ ≤ b.first ∨ b.end_ ≤ a.first

theorem Apart.symm {a b : Span} (h : Apart a b) : Apart b a := Or.symm h

structure Canonical (rs : List Span) : Prop where
  sorted : rs.Pairwise fun a b => a.end_ ≤ b.first
  solid : ∀ r ∈ rs, r.first < r.end_ ∧ r.count ≠ 0

/-- The runs but the empty ones and those of count zero, by first page. -/
def tidy (rs : List Span) : List Span :=
  (rs.filter fun r => r.count ≠ 0 ∧ r.first < r.end_).mergeSort fun a b => a.first ≤ b.first

@[simp] theorem total_nil (p : Nat) : total [] p = 0 := rfl

@[simp] theorem total_cons (r : Span) (rs : List Span) (p : Nat) :
    total (r :: rs) p = r.at_ p + total rs p := by simp [total]

@[simp] theorem total_append (rs ss : List Span) (p : Nat) :
    total (rs ++ ss) p = total rs p + total ss p := by simp [total]

variable {rs : List Span}

theorem total_eq_zero {p : Nat} (h : ∀ r ∈ rs, r.at_ p = 0) : total rs p = 0 := by
  rw [total, List.sum_eq_zero]
  simpa using h

variable {r : Span}

theorem Span.at_eq_zero_of_idle (h : ¬(r.count ≠ 0 ∧ r.first < r.end_)) (p : Nat) :
    r.at_ p = 0 := by
  unfold Span.at_
  split <;> omega

theorem total_tidy (rs : List Span) (p : Nat) : total (tidy rs) p = total rs p := by
  have hfilter : total (rs.filter fun r => r.count ≠ 0 ∧ r.first < r.end_) p = total rs p := by
    induction rs with
    | nil => rfl
    | cons r rs ih =>
      by_cases hr : r.count ≠ 0 ∧ r.first < r.end_
      · rw [List.filter_cons_of_pos (by simpa using hr), total_cons, total_cons, ih]
      · rw [List.filter_cons_of_neg (by simpa using hr), total_cons, ih,
          Span.at_eq_zero_of_idle hr, Nat.zero_add]
  rw [← hfilter]
  exact ((List.mergeSort_perm _ _).map _).sum_eq

theorem canonical_tidy (h : rs.Pairwise Apart) : Canonical (tidy rs) := by
  have hmem {r : Span} (hr : r ∈ tidy rs) : r.count ≠ 0 ∧ r.first < r.end_ := by
    have := List.mem_mergeSort.1 hr
    simpa using (List.mem_filter.1 this).2
  refine ⟨?_, fun r hr => ⟨(hmem hr).2, (hmem hr).1⟩⟩
  have hapart : (tidy rs).Pairwise Apart :=
    ((List.mergeSort_perm _ _).pairwise_iff Apart.symm).2 (h.filter _)
  have hsorted : (tidy rs).Pairwise fun a b => a.first ≤ b.first := by
    have := @List.pairwise_mergeSort Span (fun a b => decide (a.first ≤ b.first))
      (fun a b c => by simpa using Nat.le_trans) (fun a b => by simpa using Nat.le_total _ _)
      (rs.filter fun r => r.count ≠ 0 ∧ r.first < r.end_)
    simpa [tidy] using this
  refine (hapart.and hsorted).imp_of_mem fun {a b} ha hb hab => ?_
  -- of two runs apart the one that starts first ends first, as neither is empty
  have := (hmem hb).2
  rcases hab.1 with hle | hle
  · exact hle
  · omega

/-! ## How many pages have a count -/

/-- The pages of `lo` up to `hi` that runs lie on. -/
def covered (lo hi : Nat) (rs : List Span) : Nat :=
  (rs.map fun r => min r.end_ hi - max r.first lo).sum

theorem Canonical.tail (h : Canonical (r :: rs)) : Canonical rs :=
  ⟨(List.pairwise_cons.1 h.sorted).2, fun s hs => h.solid s (List.mem_cons_of_mem r hs)⟩

theorem Canonical.total_tail (h : Canonical (r :: rs)) {p : Nat}
    (hp : p < r.end_) : total rs p = 0 :=
  total_eq_zero fun s hs => by
    have := (List.pairwise_cons.1 h.sorted).1 s hs
    exact if_neg (by omega)

theorem covered_eq (h : Canonical rs) (lo hi : Nat) :
    covered lo hi rs = ((Finset.Ico lo hi).filter fun p => total rs p ≠ 0).card := by
  induction rs with
  | nil => simp [covered]
  | cons r rs ih =>
    have hcount := (h.solid r List.mem_cons_self).2
    have hsplit : ((Finset.Ico lo hi).filter fun p => total (r :: rs) p ≠ 0) =
        Finset.Ico (max r.first lo) (min r.end_ hi) ∪
          (Finset.Ico lo hi).filter fun p => total rs p ≠ 0 := by
      ext p
      simp only [Finset.mem_filter, Finset.mem_Ico, Finset.mem_union, total_cons, Span.at_]
      split <;> omega
    have hdisjoint : Disjoint (Finset.Ico (max r.first lo) (min r.end_ hi))
        ((Finset.Ico lo hi).filter fun p => total rs p ≠ 0) := by
      refine Finset.disjoint_left.2 fun p hp hp' => ?_
      rw [Finset.mem_Ico] at hp
      exact (Finset.mem_filter.1 hp').2 (h.total_tail (by omega))
    rw [hsplit, Finset.card_union_of_disjoint hdisjoint, Nat.card_Ico, ← ih h.tail]
    simp [covered]

theorem exists_top (rs : List Span) :
    ∃ top, (∀ r ∈ rs, r.end_ ≤ top) ∧ ∀ p, total rs p ≠ 0 → p < top := by
  have hend : ∀ r ∈ rs, r.end_ ≤ (rs.map (·.end_)).sum := fun r hr =>
    List.le_sum_of_mem (List.mem_map_of_mem hr)
  refine ⟨_, hend, fun p hp => ?_⟩
  by_contra hge
  refine hp (total_eq_zero fun r hr => if_neg ?_)
  have := hend r hr
  omega

theorem finite_total (rs : List Span) : {p | total rs p ≠ 0}.Finite := by
  obtain ⟨top, -, htop⟩ := exists_top rs
  exact (Set.finite_lt_nat top).subset htop

theorem sum_width_eq (h : Canonical rs) :
    (rs.map fun r => r.end_ - r.first).sum = {p | total rs p ≠ 0}.ncard := by
  obtain ⟨top, hend, htop⟩ := exists_top rs
  have hset : {p | total rs p ≠ 0} = ((Finset.Ico 0 top).filter fun p => total rs p ≠ 0) := by
    ext p
    simp only [Set.mem_ofPred_eq, Finset.coe_filter, Finset.mem_Ico, Nat.zero_le, true_and]
    exact ⟨fun hp => ⟨htop p hp, hp⟩, fun hp => hp.2⟩
  rw [hset, Set.ncard_coe_finset, ← covered_eq h, covered]
  congr 1
  refine List.map_congr_left fun r hr => ?_
  rw [min_eq_left (hend r hr), Nat.max_zero]

end Snare.Spans
