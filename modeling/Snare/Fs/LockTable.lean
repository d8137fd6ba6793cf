import Snare.Fs.Locks
import Snare.Lib.Contiguous
import Snare.Lib.Runs

/-!
# The record-lock table stays canonical

What `Table.set` keeps, and with it every section of a record-lock call. The crux is the owner's own
block: `replacement` cuts `[start, stop)` out of the owner's ranges, lets the new range swallow the
pieces of its type that it touches and sorts. Its three facts carry the table invariant:

* **`mem_replacement`**: its ranges are the owner's and not empty;
* **`replacement_ordered`**: they are in order, and ranges that touch differ in type;
* **`replacement_covered`**: what one of them covers, a range of its type covered before or the
  request covers.

`Canonical.set` puts the block back between the other owners' ranges, and `canonical_always` runs
the sections.
-/

namespace Snare.Locks

open List

/-- `a` ends before `b` starts, and where they touch their types differ. -/
def Range.Before (a b : Range) : Prop :=
  a.stop ≤ b.start ∧ (a.stop = b.start → a.write ≠ b.write)

def Range.Excludes (a b : Range) : Prop :=
  a.owner ≠ b.owner ∧ a.overlaps b.start b.stop ∧ (a.write ∨ b.write)

structure Canonical (records : List Range) : Prop where
  contiguous : Contiguous Range.owner records
  nonempty : ∀ r ∈ records, r.start < r.stop
  ordered : records.Pairwise fun a b => a.owner = b.owner → a.Before b
  compatible : ∀ a ∈ records, ∀ b ∈ records, ¬ a.Excludes b

variable {start stop : Nat}

@[simp] theorem overlaps_iff {r : Range} :
    r.overlaps start stop = true ↔ r.start < stop ∧ start < r.stop := by
  simp [Range.overlaps]

theorem Range.Excludes.symm {a b : Range} (h : a.Excludes b) : b.Excludes a := by
  obtain ⟨howner, hoverlap, hwrite⟩ := h
  refine ⟨howner.symm, ?_, hwrite.symm⟩
  rw [overlaps_iff] at hoverlap ⊢
  exact hoverlap.symm

theorem Canonical.nil : Canonical [] where
  contiguous := fun _ _ _ h => by simp at h
  nonempty := by simp
  ordered := .nil
  compatible := by simp

theorem Canonical.sublist {l l' : List Range} (h : Canonical l) (hl : List.Sublist l' l) :
    Canonical l' where
  contiguous := h.contiguous.sublist hl
  nonempty := fun r hr => h.nonempty r (hl.subset hr)
  ordered := h.ordered.sublist hl
  compatible := fun a ha b hb => h.compatible a (hl.subset ha) b (hl.subset hb)

/-! ## The pieces that stay -/

section Replacement

variable {mine : List Range} {owner : Owner} {start stop : Nat} {r k : Range}

theorem mem_trim (hr : r.start < r.stop) (hk : k ∈ r.trim start stop) :
    k.owner = r.owner ∧ k.write = r.write ∧ r.start ≤ k.start ∧ k.stop ≤ r.stop ∧
      k.start < k.stop ∧ (k.stop ≤ start ∨ stop ≤ k.start) := by
  unfold Range.trim at hk
  split at hk
  · next hover =>
    rw [overlaps_iff] at hover
    rcases mem_append.mp hk with hk | hk <;> split at hk <;>
      simp only [mem_singleton, not_mem_nil] at hk <;> subst hk <;>
      refine ⟨rfl, rfl, ?_, ?_, ?_, ?_⟩ <;> dsimp only <;> omega
  · next hover =>
    rw [overlaps_iff] at hover
    obtain rfl := mem_singleton.mp hk
    exact ⟨rfl, rfl, le_rfl, le_rfl, hr, by omega⟩

theorem trim_ordered (r : Range) (hlt : start < stop) :
    (r.trim start stop).Pairwise Range.Before := by
  unfold Range.trim
  split
  · split <;> split <;> simp [Range.Before]; omega
  · exact pairwise_singleton _ _

theorem kept_ordered (hlt : start < stop) (hmine : mine.Pairwise Range.Before)
    (hne : ∀ r ∈ mine, r.start < r.stop) :
    (mine.flatMap (·.trim start stop)).Pairwise Range.Before := by
  rw [pairwise_flatMap]
  refine ⟨fun r _ => trim_ordered r hlt, hmine.imp_of_mem ?_⟩
  intro r r' hr hr' hbefore k hk k' hk'
  obtain ⟨-, hkw, -, hkstop, -⟩ := mem_trim (hne r hr) hk
  obtain ⟨-, hkw', hkstart', -⟩ := mem_trim (hne r' hr') hk'
  refine ⟨by have := hbefore.1; omega, fun htouch => ?_⟩
  rw [hkw, hkw']
  exact hbefore.2 (by have := hbefore.1; omega)

/-! ## The new range -/

private theorem foldl_min_eq {α : Type} [LinearOrder α] (key : Range → α)
    (l : List Range) (low : α) :
    let m := l.foldl (fun low r => min low (key r)) low
    m = low ∨ m < low ∧ ∃ j ∈ l, m = key j := by
  induction l generalizing low with
  | nil => exact .inl rfl
  | cons r l ih =>
    simp only [foldl_cons]
    rcases ih (min low (key r)) with h | ⟨hlt, j, hj, h⟩
    · rcases lt_or_ge (key r) low with hr | hr
      · rw [min_eq_right hr.le] at h ⊢
        exact .inr ⟨h.trans_lt hr, r, mem_cons_self, h⟩
      · exact .inl (h.trans (min_eq_left hr))
    · exact .inr ⟨hlt.trans_le (min_le_left _ _), j, mem_cons_of_mem _ hj, h⟩

theorem merged_start (kept : List Range) (owner : Owner) (start stop : Nat) (write : Bool) :
    let m := merged kept owner start stop write
    m.start = start ∨ m.start < start ∧
      ∃ j ∈ kept, j.write = write ∧ start ≤ j.stop ∧ m.start = j.start := by
  rcases foldl_min_eq Range.start (kept.filter (·.joins start stop write))
    start with h | ⟨hlt, j, hj, h⟩
  · exact .inl h
  · simp only [mem_filter, Range.joins, Bool.and_eq_true, beq_iff_eq, decide_eq_true_eq] at hj
    exact .inr ⟨hlt, j, hj.1, hj.2.1.1, hj.2.2, h⟩

theorem merged_stop (kept : List Range) (owner : Owner) (start stop : Nat) (write : Bool) :
    let m := merged kept owner start stop write
    m.stop = stop ∨ stop < m.stop ∧
      ∃ j ∈ kept, j.write = write ∧ j.start ≤ stop ∧ m.stop = j.stop := by
  rcases foldl_min_eq (α := ℕᵒᵈ) Range.stop
    (kept.filter (·.joins start stop write)) stop with h | ⟨hlt, j, hj, h⟩
  · exact .inl h
  · simp only [mem_filter, Range.joins, Bool.and_eq_true, beq_iff_eq, decide_eq_true_eq] at hj
    exact .inr ⟨hlt, j, hj.1, hj.2.1.1, hj.2.1.2, h⟩

def Range.Apart (a b : Range) : Prop := a.Before b ∨ b.Before a

instance : Std.Symm Range.Apart := ⟨fun _ _ h => Or.symm h⟩

theorem merged_apart {kept : List Range} {write : Bool} (hlt : start < stop)
    (hkept : kept.Pairwise Range.Apart)
    (hpiece : ∀ r ∈ kept, r.start < r.stop ∧ (r.stop ≤ start ∨ stop ≤ r.start))
    (hk : k ∈ kept) (hjoin : k.joins start stop write = false) :
    k.Apart (merged kept owner start stop write) := by
  have hmw : (merged kept owner start stop write).write = write := rfl
  have happart : ∀ j ∈ kept, j.write = write → k.stop ≤ start ∧ start ≤ j.stop ∨
      stop ≤ k.start ∧ j.start ≤ stop → k.Apart j := by
    intro j hj hw hside
    refine hkept.forall hk hj ?_
    rintro rfl
    have := hpiece k hk
    simp only [Range.joins, hw, beq_self_eq_true, Bool.true_and, Bool.and_eq_false_iff,
      decide_eq_false_iff_not] at hjoin
    omega
  have hnot : k.write ≠ write ∨ stop < k.start ∨ k.stop < start := by
    simp only [Range.joins, Bool.and_eq_false_iff, beq_eq_false_iff_ne,
      decide_eq_false_iff_not] at hjoin
    rcases hjoin with (hw | h) | h
    · exact .inl hw
    · exact .inr (.inl (by omega))
    · exact .inr (.inr (by omega))
  obtain ⟨hkne, hkout | hkout⟩ := hpiece k hk
  · left
    rcases merged_start kept owner start stop write with h | ⟨-, j, hj, hw, hjstop, h⟩
    · refine ⟨by omega, fun htouch => ?_⟩
      rw [hmw]
      exact hnot.resolve_right (by omega)
    · rcases happart j hj hw (.inl ⟨hkout, hjstop⟩) with hb | hb
      · refine ⟨by have := hb.1; omega, fun htouch => ?_⟩
        rw [hmw, ← hw]
        exact hb.2 (by omega)
      · have := hb.1
        omega
  · right
    rcases merged_stop kept owner start stop write with h | ⟨-, j, hj, hw, hjstart, h⟩
    · refine ⟨by omega, fun htouch => ?_⟩
      rw [hmw]
      exact (hnot.resolve_right (by omega)).symm
    · rcases happart j hj hw (.inr ⟨hkout, hjstart⟩) with hb | hb
      · have := hb.1
        omega
      · refine ⟨by have := hb.1; omega, fun htouch => ?_⟩
        rw [hmw, ← hw]
        exact hb.2 (by omega)

theorem insertionSort_ordered {l : List Range} (hl : l.Pairwise Range.Apart)
    (hne : ∀ r ∈ l, r.start < r.stop) :
    (l.insertionSort (fun a b => a.start ≤ b.start)).Pairwise Range.Before := by
  have hperm := l.perm_insertionSort (fun a b => a.start ≤ b.start)
  have hsorted := l.pairwise_insertionSort (fun a b => a.start ≤ b.start)
  have hapart := (hperm.pairwise_iff (fun h => Std.Symm.symm _ _ h)).mpr hl
  refine (hsorted.and hapart).imp_of_mem ?_
  rintro a b ha hb ⟨hle, hab | hba⟩
  · exact hab
  · have := hne b (hperm.mem_iff.mp hb)
    have := hba.1
    omega

/-! ## The owner's new block -/

theorem mem_kept (hne : ∀ r ∈ mine, r.start < r.stop) (hk : k ∈ mine.flatMap (·.trim start stop)) :
    (k.start < k.stop ∧ (k.stop ≤ start ∨ stop ≤ k.start)) ∧
      ∃ r ∈ mine, k.owner = r.owner ∧ k.write = r.write ∧ r.start ≤ k.start ∧ k.stop ≤ r.stop := by
  obtain ⟨r, hr, hk⟩ := mem_flatMap.mp hk
  obtain ⟨howner, hwrite, hstart, hstop, hkne, hout⟩ := mem_trim (hne r hr) hk
  exact ⟨⟨hkne, hout⟩, r, hr, howner, hwrite, hstart, hstop⟩

theorem merged_nonempty (kept : List Range) (owner : Owner) (write : Bool) (hlt : start < stop) :
    (merged kept owner start stop write).start < (merged kept owner start stop write).stop := by
  have h₁ : (merged kept owner start stop write).start ≤ start := by
    rcases merged_start kept owner start stop write with h | ⟨h, -⟩ <;> omega
  have h₂ : stop ≤ (merged kept owner start stop write).stop := by
    rcases merged_stop kept owner start stop write with h | ⟨h, -⟩ <;> omega
  omega

variable {write : Option Bool}

theorem replacement_cases (hr : r ∈ replacement mine owner start stop write) :
    r ∈ mine.flatMap (·.trim start stop) ∨ ∃ w, write = some w ∧
      r = merged (mine.flatMap (·.trim start stop)) owner start stop w := by
  unfold replacement at hr
  rw [mem_insertionSort] at hr
  cases write with
  | none => exact .inl hr
  | some w =>
    rcases mem_append.mp hr with hr | hr
    · exact .inl (mem_of_mem_filter hr)
    · exact .inr ⟨w, rfl, mem_singleton.mp hr⟩

theorem mem_replacement (hlt : start < stop)
    (howner : ∀ r ∈ mine, r.owner = owner) (hne : ∀ r ∈ mine, r.start < r.stop)
    (hr : r ∈ replacement mine owner start stop write) : r.owner = owner ∧ r.start < r.stop := by
  rcases replacement_cases hr with hk | ⟨w, -, rfl⟩
  · obtain ⟨⟨hkne, -⟩, m, hm, hmo, -⟩ := mem_kept hne hk
    exact ⟨hmo.trans (howner m hm), hkne⟩
  · exact ⟨rfl, merged_nonempty _ owner w hlt⟩

theorem replacement_ordered (write : Option Bool) (hlt : start < stop)
    (hmine : mine.Pairwise Range.Before) (hne : ∀ r ∈ mine, r.start < r.stop) :
    (replacement mine owner start stop write).Pairwise Range.Before := by
  set kept := mine.flatMap (·.trim start stop)
  have hapart : kept.Pairwise Range.Apart := (kept_ordered hlt hmine hne).imp Or.inl
  have hpiece : ∀ k ∈ kept, k.start < k.stop ∧ (k.stop ≤ start ∨ stop ≤ k.start) :=
    fun k hk => (mem_kept hne hk).1
  cases write with
  | none => exact insertionSort_ordered hapart fun k hk => (hpiece k hk).1
  | some w =>
    refine insertionSort_ordered (pairwise_append.mpr ⟨?_, pairwise_singleton _ _, ?_⟩) ?_
    · exact hapart.filter _
    · intro k hk m hm
      obtain rfl := mem_singleton.mp hm
      obtain ⟨hk, hjoin⟩ := mem_filter.mp hk
      exact merged_apart hlt hapart hpiece hk (by simpa using hjoin)
    · intro r hr
      rcases mem_append.mp hr with hr | hr
      · exact (hpiece r (mem_of_mem_filter hr)).1
      · obtain rfl := mem_singleton.mp hr
        exact merged_nonempty kept owner w hlt

theorem replacement_covered {s : Range} (hne : ∀ r ∈ mine, r.start < r.stop) (hs : s.start < s.stop)
    (hr : r ∈ replacement mine owner start stop write) (hover : r.overlaps s.start s.stop) :
    (∃ m ∈ mine, m.write = r.write ∧ m.overlaps s.start s.stop) ∨
      write = some r.write ∧ s.overlaps start stop := by
  simp only [overlaps_iff] at hover ⊢
  rcases replacement_cases hr with hk | ⟨w, hw, rfl⟩
  · obtain ⟨-, m, hm, -, hmw, hstart, hstop⟩ := mem_kept hne hk
    exact .inl ⟨m, hm, hmw.symm, by omega, by omega⟩
  · set kept := mine.flatMap (·.trim start stop)
    by_cases hreq : s.start < stop ∧ start < s.stop
    · exact .inr ⟨hw, hreq⟩
    · -- `s` meets the new range outside the request, so it meets a range that was merged
      left
      rcases Nat.lt_or_ge start s.stop with hright | hleft
      · rcases merged_stop kept owner start stop w with h | ⟨-, j, hj, hjw, hjstart, h⟩
        · omega
        · obtain ⟨-, m, hm, -, hmw, hstart, hstop⟩ := mem_kept hne hj
          exact ⟨m, hm, hmw.symm.trans hjw, by omega, by omega⟩
      · rcases merged_start kept owner start stop w with h | ⟨-, j, hj, hjw, hjstop, h⟩
        · omega
        · obtain ⟨-, m, hm, -, hmw, hstart, hstop⟩ := mem_kept hne hj
          exact ⟨m, hm, hmw.symm.trans hjw, by omega, by omega⟩

end Replacement

/-! ## The whole table -/

theorem set_records (t : Table) (owner : Owner) (start stop : Nat) (write : Option Bool)
    (h : Contiguous Range.owner t.records) :
    ∃ pre mine post, t.records = pre ++ mine ++ post ∧ (∀ r ∈ pre, r.owner ≠ owner) ∧
      (∀ r ∈ mine, r.owner = owner) ∧ (∀ r ∈ post, r.owner ≠ owner) ∧ (mine = [] → post = []) ∧
      (t.set owner start stop write).1.records =
        pre ++ replacement mine owner start stop write ++ post := by
  obtain ⟨pre, mine, post, hrec, hpre, hmine, hpost, hnil⟩ := h.block owner
  refine ⟨pre, mine, post, hrec, hpre, hmine, hpost, hnil, ?_⟩
  have hfmine : t.records.filter (·.owner == owner) = mine := by
    rw [hrec, filter_append, filter_append,
      filter_eq_nil_iff.mpr (by simpa using hpre),
      filter_eq_self.mpr (by simpa using hmine),
      filter_eq_nil_iff.mpr (by simpa using hpost)]
    simp
  have hfrest : t.records.filter (·.owner != owner) = pre ++ post := by
    rw [hrec, filter_append, filter_append, filter_eq_self.mpr (by simpa using hpre),
      filter_eq_nil_iff.mpr (by simpa using hmine),
      filter_eq_self.mpr (by simpa using hpost)]
    simp
  -- the place is behind `pre`: before the owner's first range, or at the end of the list
  have hplace : (t.records.findIdx? (·.owner == owner)).getD (pre ++ post).length = pre.length := by
    cases mine with
    | nil =>
      have hnone : t.records.findIdx? (·.owner == owner) = none := by
        rw [findIdx?_eq_none_iff, hrec, hnil rfl]
        simpa using hpre
      simp [hnone, hnil rfl]
    | cons m mine =>
      have hsome : t.records.findIdx? (·.owner == owner) = some pre.length := by
        rw [hrec, append_assoc, findIdx?_append,
          findIdx?_eq_none_iff.mpr (by simpa using hpre)]
        simp [findIdx?_cons, hmine m mem_cons_self]
      rw [hsome, Option.getD_some]
  simp only [Table.set, hfmine, hfrest, hplace]
  simp

variable {t t' : Table} {owner : Owner}

theorem conflict_eq_none {write : Bool}
    (h : t.conflict owner start stop write = none) {r : Range} (hr : r ∈ t.records)
    (howner : r.owner ≠ owner) (hwrite : write ∨ r.write) : ¬ r.overlaps start stop := by
  have := find?_eq_none.mp h r hr
  simp_all

/-- **Setting a range keeps the table canonical**, when no other owner's lock conflicts with it. -/
theorem Canonical.set {write : Option Bool} (h : Canonical t.records) (hlt : start < stop)
    (hfree : ∀ w, write = some w → t.conflict owner start stop w = none) :
    Canonical (t.set owner start stop write).1.records := by
  obtain ⟨pre, mine, post, hrec, hpre, hmine, hpost, hnil, hset⟩ :=
    set_records t owner start stop write h.contiguous
  have hmem : ∀ r, r ∈ pre ++ mine ++ post → r ∈ t.records := fun r hr => hrec ▸ hr
  have hne : ∀ r ∈ mine, r.start < r.stop := fun r hr => h.nonempty r (hmem r (by simp [hr]))
  have hord := hrec ▸ h.ordered
  rw [append_assoc, pairwise_append, pairwise_append] at hord
  obtain ⟨hopre, ⟨homine, hopost, -⟩, hcross⟩ := hord
  have hmineBefore : mine.Pairwise Range.Before :=
    homine.imp_of_mem fun ha hb hab => hab ((hmine _ ha).trans (hmine _ hb).symm)
  have hblock : ∀ r ∈ replacement mine owner start stop write, r.owner = owner ∧ r.start < r.stop :=
    fun r hr => mem_replacement hlt hmine hne hr
  -- a range of the new block and one of another owner
  have hexcl : ∀ r ∈ replacement mine owner start stop write, ∀ s ∈ pre ++ post,
      ¬ r.Excludes s := by
    rintro r hr s hs ⟨-, hover, hwrite⟩
    have hsrec : s ∈ t.records := hmem s (by simp at hs ⊢; tauto)
    have hsowner : s.owner ≠ owner := by
      rcases mem_append.mp hs with hs | hs
      · exact hpre s hs
      · exact hpost s hs
    rcases replacement_covered hne (h.nonempty s hsrec) hr hover with ⟨m, hm, hmw, hmo⟩ | ⟨hw, hreq⟩
    · refine h.compatible m (hmem m (by simp [hm])) s hsrec ⟨?_, hmo, hmw ▸ hwrite⟩
      exact fun heq => hsowner (heq.symm.trans (hmine m hm))
    · exact conflict_eq_none (hfree _ hw) hsrec hsowner hwrite hreq
  rw [hset]
  refine ⟨?_, ?_, ?_, ?_⟩
  · exact (hrec ▸ h.contiguous).replace hpre hmine hpost hnil fun r hr => (hblock r hr).1
  · intro r hr
    simp only [mem_append] at hr
    rcases hr with (hr | hr) | hr
    · exact h.nonempty r (hmem r (by simp [hr]))
    · exact (hblock r hr).2
    · exact h.nonempty r (hmem r (by simp [hr]))
  · rw [append_assoc, pairwise_append, pairwise_append]
    refine ⟨hopre, ⟨?_, hopost, ?_⟩, ?_⟩
    · refine (replacement_ordered write hlt hmineBefore hne).imp ?_
      intro a b hab _
      exact hab
    · intro a ha b hb hab
      exact absurd (hab.symm.trans (hblock a ha).1) (hpost b hb)
    · intro a ha b hb hab
      rcases mem_append.mp hb with hb | hb
      · exact absurd (hab.trans (hblock b hb).1) (hpre a ha)
      · exact hcross a ha b (by simp [hb]) hab
  · intro a ha b hb hab
    have hsplit : ∀ r, r ∈ pre ++ replacement mine owner start stop write ++ post →
        r ∈ replacement mine owner start stop write ∨ r ∈ pre ++ post := by
      intro r hr
      simp only [mem_append] at hr ⊢
      tauto
    have hold : ∀ r, r ∈ pre ++ post → r ∈ t.records := by
      intro r hr
      apply hmem
      simp only [mem_append] at hr ⊢
      tauto
    rcases hsplit a ha with ha | ha <;> rcases hsplit b hb with hb | hb
    · exact hab.1 ((hblock a ha).1.trans (hblock b hb).1.symm)
    · exact hexcl a ha b hb hab
    · exact hexcl b hb a ha hab.symm
    · exact h.compatible a (hold a ha) b (hold b hb) hab

theorem Canonical.attempt {kind : Option Bool}
    {released : Bool} (h : Canonical t.records) (hlt : start < stop)
    (ha : t.attempt owner start stop kind = some (t', released)) : Canonical t'.records := by
  have hset : t' = (t.set owner start stop kind).1 ∧
      ∀ w, kind = some w → t.conflict owner start stop w = none := by
    cases kind with
    | none => simp_all [Table.attempt]
    | some w =>
      simp only [Table.attempt] at ha
      split at ha
      · simp at ha
      · next hfree => simp_all
  rw [hset.1]
  exact h.set hlt hset.2

/-! ## The sections of the calls -/

theorem checkedAdd_eq_some {a b c : Int} (h : checkedAdd a b = some c) :
    c = a + b ∧ c < 2 ^ 63 := by
  unfold checkedAdd at h
  split at h
  · cases h
    exact ⟨rfl, by omega⟩
  · simp at h

theorem extent_lt {start len first : Int} {stop : Option Int} (hstart : start < 2 ^ 63)
    (h : extent start len = .ok (first, stop)) :
    first < 2 ^ 63 ∧ ∀ e, stop = some e → first < e := by
  unfold extent at h
  split at h
  · cases h
    exact ⟨hstart, by simp⟩
  · next hlen =>
    split at h <;> split at h <;> first | (cases h; done) | skip
    · next e he =>
      obtain ⟨rfl, -⟩ := checkedAdd_eq_some he
      cases h
      exact ⟨hstart, by rintro e ⟨⟩; omega⟩
    · next first he =>
      obtain ⟨rfl, hlt⟩ := checkedAdd_eq_some he
      cases h
      exact ⟨hlt, by rintro e ⟨⟩; omega⟩

variable {target : Target}

/-- **The range a `struct flock` names is never empty.** -/
theorem span_lt {lock : Flock} (h : span lock target = .ok (start, stop)) : start < stop := by
  unfold span at h
  cases hbase : base lock target with
  | error e => simp [hbase, bind, Except.bind] at h
  | ok b =>
    simp only [hbase, bind, Except.bind] at h
    split at h
    · cases h
    · next s hs =>
      have hslt := (checkedAdd_eq_some hs).2
      cases hext : extent s lock.len with
      | error e => simp [hext] at h
      | ok p =>
        obtain ⟨first, last⟩ := p
        obtain ⟨hfirst, hlast⟩ := extent_lt hslt hext
        simp only [hext] at h
        split at h
        · cases h
        · next hneg =>
          cases h
          cases last with
          | none => simp only [Option.elim, toEnd]; omega
          | some e => have := hlast e rfl; simp only [Option.elim]; omega

section

variable (h : Canonical t.records)
include h

theorem Canonical.setlk {blocking : Bool} {kind : Option Bool} {outcome : Outcome}
    (hlt : start < stop) (hs : t.setlk target blocking owner start stop kind = (t', outcome)) :
    Canonical t'.records := by
  unfold Table.setlk at hs
  split at hs
  · cases hs; exact h
  · split at hs
    · next ha => cases hs; exact h.attempt hlt ha
    · cases hs; exact h

theorem Canonical.fcntl {host : Host} {pid : Int} {cmd : Cmd}
    {arg : Option Flock} {outcome : Outcome}
    (hf : t.fcntl host pid cmd arg target = some (t', outcome)) : Canonical t'.records := by
  obtain ⟨⟨request, ofd⟩, -, hf⟩ := Option.map_eq_some_iff.mp hf
  dsimp only at hf
  split at hf
  · cases hf; exact h
  · next fl =>
    split at hf
    · cases hf; exact h
    · split at hf
      · cases hf; exact h
      · next start stop hspan =>
        have hlt := span_lt hspan
        -- only the set requests touch the table
        split at hf
        · cases hf; exact h
        · cases hf; exact h
        · exact h.setlk hlt hf
        · exact h.setlk hlt hf

theorem Canonical.dropFlock (description : Nat) :
    Canonical (t.dropFlock description).records :=
  h.sublist filter_sublist

theorem Canonical.flockRecordAttempt {description : Nat} {exclusive released : Bool}
    (ha : t.flockRecordAttempt description exclusive = some (t', released)) :
    Canonical t'.records :=
  h.attempt (by decide) ha

end

/-! ## Runs of sections -/

/-- A section of a record-lock call or of a release; `flockRetry` is an attempt of a waiting macOS
`flock`, and a waiting `fcntl` attempts itself again. -/
inductive Section where
  | fcntl (cmd : Cmd) (arg : Option Flock) (target : Target)
  | flockRecord (description : Nat) (exclusive nonblocking : Bool)
  | flockRetry (description : Nat) (exclusive : Bool)
  | releaseFlock (description : Nat)
  | releaseProcess
  | releaseDescription (description : Nat)

/-- The table after a section; a command that is no record lock does not reach the table. -/
def Table.step (host : Host) (pid : Int) (t : Table) : Section → Table
  | .fcntl cmd arg target => (t.fcntl host pid cmd arg target).elim t Prod.fst
  | .flockRecord description exclusive nonblocking =>
    (t.flockRecord description exclusive nonblocking).1
  | .flockRetry description exclusive =>
    (t.flockRecordAttempt description exclusive).elim t Prod.fst
  | .releaseFlock description => t.dropFlock description
  | .releaseProcess => t.releaseProcess
  | .releaseDescription description => t.releaseDescription description

theorem Canonical.step (host : Host) (pid : Int) (h : Canonical t.records)
    (s : Section) : Canonical (t.step host pid s).records := by
  cases s with
  | fcntl cmd arg target =>
    simp only [Table.step]
    cases hf : t.fcntl host pid cmd arg target with
    | none => exact h
    | some p => exact h.fcntl hf
  | flockRecord description exclusive nonblocking =>
    simp only [Table.step, Table.flockRecord]
    cases ha : t.flockRecordAttempt description exclusive with
    | some p => exact h.flockRecordAttempt ha
    | none =>
      dsimp only
      split
      · exact h
      · dsimp only
        split
        · exact h.dropFlock description
        · exact h
  | flockRetry description exclusive =>
    simp only [Table.step]
    cases ha : t.flockRecordAttempt description exclusive with
    | none => exact h
    | some p => exact h.flockRecordAttempt ha
  | releaseFlock description => exact h.dropFlock description
  | releaseProcess => exact h.sublist filter_sublist
  | releaseDescription description =>
    exact Canonical.dropFlock (h.sublist filter_sublist) description

/-- **The record-lock table is canonical at every point of every run**: each owner's ranges stand
together, in order, non-empty and disjoint, ranges that touch differ in type, and no two owners'
overlapping ranges are both there with one exclusive. -/
theorem canonical_always (host : Host) (pid : Int) (sections : List Section) :
    Runs.Always (Table.step host pid) (fun t => Canonical t.records) Table.empty sections :=
  Runs.always_of_step (I := fun t : Table => Canonical t.records)
    (fun _ s h => h.step host pid s) Canonical.nil sections

end Snare.Locks
