import Snare.Fs.LockTable

/-!
# What setting a record lock means, byte by byte

A table is read as what each owner holds on each byte (`Holds`). Setting a range overwrites the
owner's bytes in it and no others, and a set or a release that lets another owner's request through
says so.

* **`set_holds`**: what each owner then holds, byte by byte;
* **`set_reports`**: the flag of `Table.set` is complete: the pieces left and the new range stand in
  the way of every request that the owner's ranges stood in the way of, unless the flag is set;
* **`release_reported`**: the same of every operation that can let a waiting request through.
-/

namespace Snare.Locks

open List

/-- `owner` holds a lock of type `write` on the byte `x`. -/
def Holds (records : List Range) (owner : Owner) (x : Nat) (write : Bool) : Prop :=
  ∃ r ∈ records, r.owner = owner ∧ r.start ≤ x ∧ x < r.stop ∧ r.write = write

def Covers (ranges : List Range) (x : Nat) (write : Bool) : Prop :=
  ∃ r ∈ ranges, r.start ≤ x ∧ x < r.stop ∧ r.write = write

/-! ## The pieces -/

section Pieces

variable {mine : List Range} {owner : Owner} {start stop x : Nat} {w : Bool}

theorem covers_trim {r : Range} (hout : x < start ∨ stop ≤ x) :
    Covers (r.trim start stop) x w ↔ r.start ≤ x ∧ x < r.stop ∧ r.write = w := by
  unfold Range.trim Covers
  split
  · next hover =>
    rw [overlaps_iff] at hover
    constructor
    · rintro ⟨k, hk, h₁, h₂, hw⟩
      rcases mem_append.mp hk with hk | hk <;> split at hk <;>
        simp only [mem_singleton, not_mem_nil] at hk <;> subst hk <;>
        exact ⟨by dsimp only at h₁; omega, by dsimp only at h₂; omega, hw⟩
    · rintro ⟨h₁, h₂, hw⟩
      rcases hout with hout | hout
      · refine ⟨{ r with stop := start }, mem_append_left _ ?_, h₁, hout, hw⟩
        rw [if_pos (by omega)]
        exact mem_singleton_self _
      · refine ⟨{ r with start := stop }, mem_append_right _ ?_, hout, h₂, hw⟩
        rw [if_pos (by omega)]
        exact mem_singleton_self _
  · simp

theorem covers_kept (hout : x < start ∨ stop ≤ x) :
    Covers (mine.flatMap (·.trim start stop)) x w ↔ Covers mine x w := by
  constructor
  · rintro ⟨k, hk, hcover⟩
    obtain ⟨r, hr, hk⟩ := mem_flatMap.mp hk
    exact ⟨r, hr, (covers_trim hout).mp ⟨k, hk, hcover⟩⟩
  · rintro ⟨r, hr, hcover⟩
    obtain ⟨k, hk, hcover⟩ := (covers_trim hout).mpr hcover
    exact ⟨k, mem_flatMap.mpr ⟨r, hr, hk⟩, hcover⟩

theorem not_covers_kept (hne : ∀ r ∈ mine, r.start < r.stop) (hin : start ≤ x ∧ x < stop) :
    ¬ Covers (mine.flatMap (·.trim start stop)) x w := by
  rintro ⟨k, hk, h₁, h₂, -⟩
  have := (mem_kept hne hk).1.2
  omega

private theorem foldl_min_le {α : Type} [LinearOrder α] (key : Range → α)
    (l : List Range) (low : α) :
    l.foldl (fun low r => min low (key r)) low ≤ low ∧
      ∀ r ∈ l, l.foldl (fun low r => min low (key r)) low ≤ key r := by
  induction l generalizing low with
  | nil => exact ⟨le_rfl, nofun⟩
  | cons r l ih =>
    obtain ⟨hlow, hall⟩ := ih (min low (key r))
    refine ⟨hlow.trans (min_le_left _ _), fun k hk => ?_⟩
    rcases mem_cons.mp hk with rfl | hk
    · exact hlow.trans (min_le_right _ _)
    · exact hall k hk

theorem merged_spans (kept : List Range) (owner : Owner) (start stop : Nat) (write : Bool) :
    let m := merged kept owner start stop write
    m.start ≤ start ∧ stop ≤ m.stop ∧
      ∀ r ∈ kept, r.joins start stop write = true → m.start ≤ r.start ∧ r.stop ≤ m.stop := by
  have hmin := foldl_min_le Range.start (kept.filter (·.joins start stop write)) start
  have hmax := foldl_min_le (α := ℕᵒᵈ) Range.stop (kept.filter (·.joins start stop write)) stop
  refine ⟨hmin.1, hmax.1, fun r hr hjoins => ?_⟩
  have hmem : r ∈ kept.filter (·.joins start stop write) := mem_filter.mpr ⟨hr, hjoins⟩
  exact ⟨hmin.2 r hmem, hmax.2 r hmem⟩

theorem covers_placed {kept : List Range} {v : Bool} (hout : x < start ∨ stop ≤ x) :
    Covers (kept.filter (fun r => !r.joins start stop v) ++ [merged kept owner start stop v]) x w ↔
      Covers kept x w := by
  obtain ⟨hstart, hstop, hspan⟩ := merged_spans kept owner start stop v
  constructor
  · rintro ⟨r, hr, h₁, h₂, hw⟩
    rcases mem_append.mp hr with hr | hr
    · exact ⟨r, mem_of_mem_filter hr, h₁, h₂, hw⟩
    · -- the new range reaches past the request only over a piece of its type
      obtain rfl := mem_singleton.mp hr
      rcases hout with hout | hout
      · rcases merged_start kept owner start stop v with h | ⟨-, j, hj, hjw, hjstop, h⟩
        · omega
        · exact ⟨j, hj, by omega, by omega, hjw.trans hw⟩
      · rcases merged_stop kept owner start stop v with h | ⟨-, j, hj, hjw, hjstart, h⟩
        · omega
        · exact ⟨j, hj, by omega, by omega, hjw.trans hw⟩
  · rintro ⟨r, hr, h₁, h₂, hw⟩
    cases hjoins : r.joins start stop v with
    | false =>
      exact ⟨r, mem_append_left _ (mem_filter.mpr ⟨hr, by simp [hjoins]⟩), h₁, h₂, hw⟩
    | true =>
      have hrw : r.write = v := by
        simp only [Range.joins, Bool.and_eq_true, beq_iff_eq] at hjoins
        exact hjoins.1.1
      have := hspan r hr hjoins
      exact ⟨_, mem_append_right _ (mem_singleton_self _), by omega, by omega,
        hrw.symm.trans hw⟩

theorem replacement_covers (hne : ∀ r ∈ mine, r.start < r.stop) (write : Option Bool) :
    Covers (replacement mine owner start stop write) x w ↔
      if start ≤ x ∧ x < stop then write = some w else Covers mine x w := by
  have hsort : ∀ l : List Range,
      Covers (l.insertionSort fun a b => a.start ≤ b.start) x w ↔ Covers l x w := fun l => by
    simp only [Covers, mem_insertionSort]
  unfold replacement
  rw [hsort]
  cases write with
  | none =>
    dsimp only
    split
    · next hin => simpa using not_covers_kept hne hin
    · next hout => exact covers_kept (by omega)
  | some v =>
    dsimp only
    split
    · next hin =>
      obtain ⟨hstart, hstop, -⟩ :=
        merged_spans (mine.flatMap (·.trim start stop)) owner start stop v
      constructor
      · rintro ⟨r, hr, h₁, h₂, hw⟩
        rcases mem_append.mp hr with hr | hr
        · exact absurd ⟨r, mem_of_mem_filter hr, h₁, h₂, hw⟩ (not_covers_kept hne hin)
        · rw [← hw, mem_singleton.mp hr]
          rfl
      · intro hw
        exact ⟨_, mem_append_right _ (mem_singleton_self _), by omega, by omega,
          Option.some.inj hw⟩
    · next hout => exact (covers_placed (by omega)).trans (covers_kept (by omega))

end Pieces

theorem set_others (t : Table) (owner : Owner) (start stop : Nat) (write : Option Bool)
    (hne : ∀ r ∈ t.records, r.start < r.stop) (hcontiguous : Contiguous Range.owner t.records)
    (hlt : start < stop) : (t.set owner start stop write).1.records.filter (·.owner != owner)
      = t.records.filter (·.owner != owner) := by
  obtain ⟨pre, mine, post, hrec, hpre, hmine, hpost, -, hset⟩ :=
    set_records t owner start stop write hcontiguous
  have hblock : ∀ r ∈ replacement mine owner start stop write, r.owner = owner := fun r hr =>
    (mem_replacement hlt hmine (fun r hr => hne r (by rw [hrec]; simp [hr])) hr).1
  rw [hset, hrec]
  simp only [filter_append]
  have hnone : ∀ block : List Range, (∀ r ∈ block, r.owner = owner) →
      block.filter (·.owner != owner) = [] := fun block h =>
    filter_eq_nil_iff.mpr (by simpa using h)
  rw [hnone mine hmine, hnone _ hblock]

/-- **Setting a record lock, byte by byte.** Afterwards the owner holds the requested type on
exactly the bytes of the range, and on every other byte what it held before; the other owners'
ranges and their order are unchanged. -/
theorem set_holds (t : Table) (h : Canonical t.records) (owner : Owner) (start stop : Nat)
    (write : Option Bool) (hlt : start < stop) :
    (∀ x w, Holds (t.set owner start stop write).1.records owner x w ↔
      if start ≤ x ∧ x < stop then write = some w else Holds t.records owner x w) ∧
    (t.set owner start stop write).1.records.filter (·.owner != owner)
      = t.records.filter (·.owner != owner) := by
  refine ⟨fun x w => ?_, set_others t owner start stop write h.nonempty h.contiguous hlt⟩
  obtain ⟨pre, mine, post, hrec, hpre, hmine, hpost, -, hset⟩ :=
    set_records t owner start stop write h.contiguous
  have hne : ∀ r ∈ mine, r.start < r.stop := fun r hr => h.nonempty r (by rw [hrec]; simp [hr])
  have hblock : ∀ r ∈ replacement mine owner start stop write, r.owner = owner := fun r hr =>
    (mem_replacement hlt hmine hne hr).1
  -- what the owner holds is what its block covers
  have hholds : ∀ block : List Range, (∀ r ∈ block, r.owner = owner) →
      (Holds (pre ++ block ++ post) owner x w ↔ Covers block x w) := by
    intro block howner
    constructor
    · rintro ⟨r, hr, hro, hcover⟩
      simp only [mem_append] at hr
      rcases hr with (hr | hr) | hr
      · exact absurd hro (hpre r hr)
      · exact ⟨r, hr, hcover⟩
      · exact absurd hro (hpost r hr)
    · rintro ⟨r, hr, hcover⟩
      exact ⟨r, by simp [hr], howner r hr, hcover⟩
  rw [hset, hrec, hholds _ hblock, hholds _ hmine]
  exact replacement_covers hne write

/-- A process's read lock on `[0, 10)` and a description's lock behind it. -/
def lockedTable : Table :=
  ((Table.empty.set .process 0 10 (some false)).1.set (.description 1) 20 30 (some true)).1

/-- The process unlocks the middle of its lock. -/
theorem set_holds_unlock :
    (∀ x w, Holds (lockedTable.set .process 3 5 none).1.records .process x w ↔
      if 3 ≤ x ∧ x < 5 then none = some w else Holds lockedTable.records .process x w) ∧
    (lockedTable.set .process 3 5 none).1.records.filter (·.owner != .process)
      = lockedTable.records.filter (·.owner != .process) := by
  have hfirst : Canonical (Table.empty.set .process 0 10 (some false)).1.records :=
    Canonical.nil.set (by decide) fun w _ => rfl
  have hcanonical : Canonical lockedTable.records :=
    hfirst.set (by decide) fun w hw => by cases hw; decide
  exact set_holds lockedTable hcanonical .process 3 5 none (by decide)

/-! ## Releases are reported -/

variable {t : Table} {start stop : Nat}

theorem mem_set {owner : Owner} {write : Option Bool} {r : Range} :
    r ∈ (t.set owner start stop write).1.records ↔ r ∈ t.records.filter (·.owner != owner) ∨
        r ∈ replacement (t.records.filter (·.owner == owner)) owner start stop write := by
  unfold Table.set
  dsimp only
  generalize (t.records.findIdx? (·.owner == owner)).getD
    (t.records.filter (·.owner != owner)).length = place
  have hsplit : ∀ r, r ∈ t.records.filter (·.owner != owner) ↔
      r ∈ (t.records.filter (·.owner != owner)).take place ∨
        r ∈ (t.records.filter (·.owner != owner)).drop place := fun r => by
    rw [← mem_append, take_append_drop]
  rw [mem_append, mem_append, hsplit r]
  tauto

theorem conflict_isSome {owner : Owner} {write : Bool} :
    (t.conflict owner start stop write).isSome ↔
      ∃ r ∈ t.records, r.owner ≠ owner ∧ (write = true ∨ r.write = true) ∧
        r.start < stop ∧ start < r.stop := by
  simp [Table.conflict, find?_isSome, and_assoc]

theorem exists_replacement {mine : List Range} {owner : Owner} {s e : Nat}
    (write : Option Bool) {k : Range} (hk : k ∈ mine.flatMap (·.trim start stop))
    (howner : k.owner = owner) (hover : k.start < e ∧ s < k.stop) :
    ∃ r ∈ replacement mine owner start stop write,
      r.owner = owner ∧ r.write = k.write ∧ r.start < e ∧ s < r.stop := by
  simp only [replacement, mem_insertionSort]
  cases write with
  | none => exact ⟨k, hk, howner, rfl, hover⟩
  | some v =>
    cases hjoins : k.joins start stop v with
    | false =>
      refine ⟨k, mem_append_left _ (mem_filter.mpr ⟨hk, ?_⟩), howner, rfl, hover⟩
      simp [hjoins]
    | true =>
      obtain ⟨-, -, hspan⟩ :=
        merged_spans (mine.flatMap (·.trim start stop)) owner start stop v
      have := hspan k hk hjoins
      refine ⟨_, mem_append_right _ (mem_singleton_self _), rfl, ?_, by omega, by omega⟩
      simp only [Range.joins, Bool.and_eq_true, beq_iff_eq] at hjoins
      exact hjoins.1.1.symm

/-- **The flag of `Table.set` is complete.** A range of the owner in the way of a non-empty request
leaves something in its way unless the flag is set. -/
theorem set_reports {owner : Owner} {s e : Nat} {write : Option Bool}
    {w : Bool} {r : Range} (hse : s < e) (hr : r ∈ t.records) (howner : r.owner = owner)
    (hw : w = true ∨ r.write = true) (hover : r.start < e ∧ s < r.stop)
    (hflag : (t.set owner start stop write).2 = false) :
    ∃ r' ∈ (t.set owner start stop write).1.records,
      r'.owner = owner ∧ (w = true ∨ r'.write = true) ∧ r'.start < e ∧ s < r'.stop := by
  have hmine : r ∈ t.records.filter (·.owner == owner) :=
    mem_filter.mpr ⟨hr, by simpa using howner⟩
  -- a piece of `r` in the request's way is enough
  have hpiece : ∀ k ∈ r.trim start stop, k.owner = owner → k.write = r.write →
      k.start < e ∧ s < k.stop → ∃ r' ∈ (t.set owner start stop write).1.records,
        r'.owner = owner ∧ (w = true ∨ r'.write = true) ∧ r'.start < e ∧ s < r'.stop := by
    intro k hk hko hkw hkover
    obtain ⟨r', hr', ho', hw', hover'⟩ := exists_replacement write
      (mem_flatMap.mpr ⟨r, hmine, hk⟩) hko hkover
    exact ⟨r', mem_set.mpr (.inr hr'), ho', by rw [hw', hkw]; exact hw, hover'⟩
  unfold Range.trim at hpiece
  by_cases hcut : r.overlaps start stop = true
  · rw [if_pos hcut] at hpiece
    -- not reported: an exclusive lock over a shared one
    have hkind : write = some true ∧ r.write = false := by
      have := any_eq_false.mp hflag r hmine
      simpa [hcut] using this
    have hw : w = true := hw.resolve_right (by simp [hkind.2])
    rcases Nat.lt_or_ge start e with hright | hleft
    · rcases Nat.lt_or_ge s stop with hin | hout
      · -- the request meets the new range
        obtain ⟨hlow, hhigh, -⟩ := merged_spans
          ((t.records.filter (·.owner == owner)).flatMap (·.trim start stop)) owner start stop true
        refine ⟨_, mem_set.mpr (.inr ?_), rfl, .inl hw, hlow.trans_lt hright, hin.trans_le hhigh⟩
        simp only [replacement, mem_insertionSort, hkind.1]
        exact mem_append_right _ (mem_singleton_self _)
      · -- the request lies behind it, where a piece of `r` is left
        refine hpiece { r with start := stop } ?_ howner rfl ⟨by dsimp only; omega, hover.2⟩
        refine mem_append_right _ ?_
        rw [if_pos (by omega)]
        exact mem_singleton_self _
    · refine hpiece { r with stop := start } ?_ howner rfl ⟨hover.1, by dsimp only; omega⟩
      refine mem_append_left _ ?_
      rw [if_pos (by omega)]
      exact mem_singleton_self _
  · rw [if_neg hcut] at hpiece
    exact hpiece r (mem_singleton_self _) howner rfl hover

/-- A request for a lock: a record lock of a non-empty range, or a Linux `flock`. -/
inductive Asked where
  | record (owner : Owner) (start stop : Nat) (write : Bool) (nonempty : start < stop)
  | flock (description : Nat) (exclusive : Bool)

def Asked.owner : Asked → Owner
  | .record owner .. => owner
  | .flock description _ => .flock description

def Asked.conflicts (t : Table) : Asked → Bool
  | .record owner start stop write _ => (t.conflict owner start stop write).isSome
  | .flock description exclusive => t.flockConflict description exclusive

/-- An operation that changes a table. A conversion of a `flock` is `convert` on Linux and a `set`
of the description's `flock` owner on macOS. -/
inductive Change where
  | set (owner : Owner) (start stop : Nat) (write : Option Bool)
  | releaseProcess
  | releaseDescription (description : Nat)
  | unlock (description : Nat)
  | convert (description : Nat) (exclusive : Bool)

def Change.owners : Change → List Owner
  | .set owner .. => [owner]
  | .releaseProcess => [.process]
  | .releaseDescription description => [.description description, .flock description]
  | .unlock description => [.flock description]
  | .convert description _ => [.flock description]

def Table.dropsFlock (t : Table) (description : Nat) : Bool :=
  (t.dropFlock description).flocks.length + (t.dropFlock description).records.length
    != t.flocks.length + t.records.length

def Change.apply (t : Table) : Change → Table × Bool
  | .set owner start stop write => t.set owner start stop write
  | .releaseProcess => (t.releaseProcess, t.releaseProcess.records.length != t.records.length)
  | .releaseDescription description =>
    let kept : Table :=
      { t with records := t.records.filter (·.owner != Owner.description description) }
    (t.releaseDescription description,
      kept.dropsFlock description || kept.records.length != t.records.length)
  | .unlock description => (t.dropFlock description, t.dropsFlock description)
  | .convert description exclusive => (t.flockConvert description exclusive).getD (t, false)

theorem dropFlock_eq_self {description : Nat}
    (h : t.dropsFlock description = false) : t.dropFlock description = t := by
  have hrecords := length_filter_le (·.owner != Owner.flock description) t.records
  have hflocks := length_filter_le (·.1 != description) t.flocks
  simp only [Table.dropsFlock, Table.dropFlock, bne_eq_false_iff_eq] at h
  have h₁ : t.records.filter (·.owner != Owner.flock description) = t.records :=
    filter_sublist.eq_of_length (by omega)
  have h₂ : t.flocks.filter (·.1 != description) = t.flocks :=
    filter_sublist.eq_of_length (by omega)
  unfold Table.dropFlock
  rw [h₁, h₂]

theorem apply_eq_self {change : Change} (h : (change.apply t).2 = false)
    (hset : ∀ owner start stop write, change ≠ .set owner start stop write) :
    (change.apply t).1 = t := by
  cases change with
  | set owner start stop write => exact absurd rfl (hset owner start stop write)
  | releaseProcess =>
    have hlen : t.releaseProcess.records.length = t.records.length := by
      simpa [Change.apply] using h
    have : t.records.filter (·.owner != Owner.process) = t.records :=
      filter_sublist.eq_of_length hlen
    simp only [Change.apply, Table.releaseProcess, this]
  | releaseDescription description =>
    simp only [Change.apply, Bool.or_eq_false_iff, bne_eq_false_iff_eq] at h ⊢
    have : t.records.filter (·.owner != Owner.description description) = t.records :=
      filter_sublist.eq_of_length h.2
    rw [Table.releaseDescription, dropFlock_eq_self h.1, this]
  | unlock description => exact dropFlock_eq_self h
  | convert description exclusive =>
    simp only [Change.apply, Table.flockConvert] at h ⊢
    split at h
    · split at h
      · next hsame => simp [hsame]
      · simp at h
    · rfl

/-- **No lost lock wake-up.** For every table and every operation on it: if a request of another
owner conflicted before and does not after, the operation reports a release. -/
theorem release_reported (t : Table) (change : Change) (asked : Asked)
    (hother : asked.owner ∉ change.owners) (hbefore : asked.conflicts t = true)
    (hafter : asked.conflicts (change.apply t).1 = false) : (change.apply t).2 = true := by
  by_contra hflag
  rw [Bool.not_eq_true] at hflag
  refine absurd ?_ (Bool.eq_false_iff.mp hafter)
  cases change with
  | set owner start stop write =>
    cases asked with
    | flock description exclusive => exact hbefore
    | record owner' s e w hse =>
      have hne : owner ≠ owner' := fun h => hother (by simp [Asked.owner, Change.owners, h])
      obtain ⟨r, hr, hro, hrw, hover⟩ := conflict_isSome.mp hbefore
      refine conflict_isSome.mpr ?_
      by_cases howner : r.owner = owner
      · obtain ⟨r', hr', ho', hw', hover'⟩ := set_reports hse hr howner hrw hover hflag
        exact ⟨r', hr', ho' ▸ hne, hw', hover'⟩
      · exact ⟨r, mem_set.mpr (.inl (mem_filter.mpr ⟨hr, by simpa using howner⟩)), hro, hrw,
          hover⟩
  | _ =>
    rw [apply_eq_self hflag nofun]
    exact hbefore

/-- The process unlocks the middle of its shared lock, and a description gets its exclusive one. -/
theorem release_reported_unlock :
    (Asked.record (.description 1) 3 5 true (by decide)).conflicts lockedTable = true ∧
      ((Change.set .process 3 5 none).apply lockedTable).2 = true :=
  ⟨by decide, release_reported lockedTable (.set .process 3 5 none)
    (.record (.description 1) 3 5 true (by decide)) (by decide) (by decide) (by decide)⟩

end Snare.Locks
