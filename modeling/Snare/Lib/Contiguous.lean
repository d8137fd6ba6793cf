import Mathlib

/-!
# Lists whose equal keys stand together

`Contiguous key l`: between two elements of `l` with one key stand only elements with that key. Such
a list splits around the block of any key (`Contiguous.block`), the property passes to sublists, and
a block may be replaced by another of its key (`Contiguous.replace`).
-/

namespace Snare

open List

variable {α β : Type*} {key : α → β} {l pre mid mid' post : List α} {k : β}

/-- Between two elements with one key stand only elements with that key. -/
def Contiguous (key : α → β) (l : List α) : Prop :=
  ∀ a b c, List.Sublist [a, b, c] l → key a = key c → key b = key a

theorem Contiguous.sublist {l' : List α} (h : Contiguous key l) (hl : List.Sublist l' l) :
    Contiguous key l' :=
  fun a b c habc => h a b c (habc.trans hl)

private theorem cons_sublist_right {a : α} {t X Y : List α} (h : List.Sublist (a :: t) (X ++ Y))
    (ha : a ∉ X) : List.Sublist (a :: t) Y := by
  obtain ⟨l₁, l₂, heq, h₁, h₂⟩ := sublist_append_iff.mp h
  cases l₁ with
  | nil => simpa [heq] using h₂
  | cons x xs =>
    obtain ⟨rfl, -⟩ := List.cons.inj heq
    exact absurd (h₁.subset mem_cons_self) ha

private theorem concat_sublist_left {c : α} {t X Y : List α} (h : List.Sublist (t ++ [c]) (X ++ Y))
    (hc : c ∉ Y) : List.Sublist (t ++ [c]) X := by
  have hrev : List.Sublist (c :: t.reverse) (Y.reverse ++ X.reverse) := by
    simpa using h.reverse
  simpa using (cons_sublist_right hrev (by simpa using hc)).reverse

theorem Contiguous.block [DecidableEq β] (h : Contiguous key l) (k : β) :
    ∃ pre mid post, l = pre ++ mid ++ post ∧ (∀ x ∈ pre, key x ≠ k) ∧ (∀ x ∈ mid, key x = k) ∧
      (∀ x ∈ post, key x ≠ k) ∧ (mid = [] → post = []) := by
  set tail := l.dropWhile (fun x => !decide (key x = k)) with htail
  have hhead : ∀ a t, tail = a :: t → key a = k := by
    intro a t htl
    have := head?_dropWhile_not (fun x => !decide (key x = k)) l
    rw [← htail, htl] at this
    simpa using this
  refine ⟨l.takeWhile (fun x => !decide (key x = k)), tail.takeWhile (fun x => decide (key x = k)),
    tail.dropWhile (fun x => decide (key x = k)), ?_, ?_, ?_, ?_, ?_⟩
  · rw [append_assoc, takeWhile_append_dropWhile, htail, takeWhile_append_dropWhile]
  · intro x hx
    simpa using mem_takeWhile_imp hx
  · intro x hx
    simpa using mem_takeWhile_imp hx
  · -- an element after the block with key `k` would enclose the one that ended the block
    cases htl : tail with
    | nil => simp
    | cons a t =>
      have ha : key a = k := hhead a t htl
      have hsub : List.Sublist (a :: t) l := htl ▸ htail ▸ dropWhile_sublist _
      simp only [dropWhile_cons, ha, decide_true, if_true]
      cases hpost : t.dropWhile (fun x => decide (key x = k)) with
      | nil => simp
      | cons b post =>
        have hb : key b ≠ k := by
          have := head?_dropWhile_not (fun x => decide (key x = k)) t
          rw [hpost] at this
          simpa using this
        have hbt : List.Sublist (b :: post) t := hpost ▸ dropWhile_sublist _
        intro x hx
        rcases mem_cons.mp hx with rfl | hx
        · exact hb
        · intro hxk
          have habx : List.Sublist [a, b, x] l :=
            ((((singleton_sublist.mpr hx).cons_cons b).trans hbt).cons_cons a).trans hsub
          exact hb ((h a b x habx (ha.trans hxk.symm)).trans ha)
  · cases htl : tail with
    | nil => simp
    | cons a t => simp [hhead a t htl]

theorem Contiguous.replace (h : Contiguous key (pre ++ mid ++ post)) (hpre : ∀ x ∈ pre, key x ≠ k)
    (hmid : ∀ x ∈ mid, key x = k) (hpost : ∀ x ∈ post, key x ≠ k) (hnil : mid = [] → post = [])
    (hmid' : ∀ x ∈ mid', key x = k) : Contiguous key (pre ++ mid' ++ post) := by
  intro a b c habc hac
  have hnot : ∀ x, key x ≠ k → x ∉ mid' := fun x hx hmem => hx (hmid' x hmem)
  by_cases ha : key a = k
  · -- `a` and `c` are in the new block, so `b` between them is
    have h₁ : List.Sublist [a, b, c] (mid' ++ post) :=
      cons_sublist_right (by simpa using habc) (fun hmem => hpre a hmem ha)
    have h₂ : List.Sublist [a, b, c] mid' :=
      concat_sublist_left (t := [a, b]) h₁ (fun hmem => hpost c hmem (hac ▸ ha))
    rw [ha]
    exact hmid' b (h₂.subset (by simp))
  have hc : key c ≠ k := hac ▸ ha
  by_cases hb : key b = k
  · -- `b` is in the new block, so `a` is before it and `c` behind it: the old
    -- block was between them
    have hapre : a ∈ pre := by
      by_contra hmem
      have h₁ := cons_sublist_right (X := pre) (by simpa using habc) hmem
      have h₂ := cons_sublist_right h₁ (hnot a ha)
      exact hpost b (h₂.subset (by simp)) hb
    have hcpost : c ∈ post := by
      by_contra hmem
      have h₁ := concat_sublist_left (t := [a, b]) habc hmem
      have h₂ := concat_sublist_left h₁ (hnot c hc)
      exact hpre b (h₂.subset (by simp)) hb
    obtain ⟨m, hm⟩ : ∃ m, m ∈ mid := by
      cases mid with
      | nil => simp [hnil rfl] at hcpost
      | cons m t => exact ⟨m, mem_cons_self⟩
    have hamc : List.Sublist ([a] ++ [m] ++ [c]) (pre ++ mid ++ post) :=
      ((singleton_sublist.mpr hapre).append (singleton_sublist.mpr hm)).append
        (singleton_sublist.mpr hcpost)
    exact absurd ((h a m c hamc hac).symm.trans (hmid m hm)) ha
  · -- none of the three is in a block of `k`
    have hall : ∀ x ∈ [a, b, c], x ∉ mid' := by simp [hnot a ha, hnot b hb, hnot c hc]
    have hsub : List.Sublist [a, b, c] (pre ++ post) := by
      obtain ⟨l₁, l₃, heq, h₁, h₃⟩ := sublist_append_iff.mp habc
      obtain ⟨l₀, l₂, rfl, h₀, h₂⟩ := sublist_append_iff.mp h₁
      have : l₂ = [] := eq_nil_iff_forall_not_mem.mpr fun x hx =>
        hall x (by simp [heq, hx]) (h₂.subset hx)
      subst this
      rw [heq, append_nil]
      exact h₀.append h₃
    refine h a b c (hsub.trans ?_) hac
    rw [append_assoc]
    exact (List.Sublist.refl pre).append (sublist_append_right mid post)

end Snare
