import Snare.Fs.LockBytes

/-!
# What is held decides the lock table

An owner's ranges are merged wherever they touch, so the bytes it holds leave one list of ranges for
it (`eq_of_covers`), however the table came about. Only the order of the owners may differ, which
shows in the lock that `F_GETLK` picks to report and in no other answer (`held_decides`).
-/

namespace Snare.Locks

open List

section Blocks

variable {r r' : Range} {mine mine' : List Range}

theorem covers_cons {x : Nat} {w : Bool} : Covers (r :: mine) x w ↔
    r.start ≤ x ∧ x < r.stop ∧ r.write = w ∨ Covers mine x w := by
  simp [Covers]

theorem not_covers_of_before (h : ∀ s ∈ mine, r.Before s) {x : Nat} {w : Bool} (hx : x < r.stop) :
    ¬ Covers mine x w := by
  rintro ⟨s, hs, hstart, -⟩
  have := (h s hs).1
  omega

/-- Where a block covers what another does, its first range starts no later than the other's, and
reaches as far if they start together. -/
theorem head_reaches (hne : r.start < r.stop) (h : (r' :: mine').Pairwise Range.Before)
    (hne' : r'.start < r'.stop)
    (hcovers : ∀ x w, Covers (r :: mine) x w → Covers (r' :: mine') x w) :
    r'.start ≤ r.start ∧ (r.start ≤ r'.start → r.write = r'.write ∧ r.stop ≤ r'.stop) := by
  obtain ⟨hbefore, -⟩ := pairwise_cons.mp h
  have hcover : ∀ x, r.start ≤ x → x < r.stop → Covers (r' :: mine') x r.write := fun x h₁ h₂ =>
    hcovers x _ (covers_cons.mpr (.inl ⟨h₁, h₂, rfl⟩))
  rcases covers_cons.mp (hcover r.start le_rfl hne) with ⟨hstart, -, hw⟩ | ⟨s, hs, hstart, -⟩
  · refine ⟨hstart, fun hle => ⟨hw.symm, ?_⟩⟩
    by_contra hlt
    -- the byte behind `r'` is of its type, so the range that covers it would be merged with `r'`
    rcases covers_cons.mp (hcover r'.stop (by omega) (by omega)) with hin | ⟨s, hs, hstart, -, hw'⟩
    · omega
    · obtain ⟨hle', htouch⟩ := hbefore s hs
      exact htouch (by omega) (hw.trans hw'.symm)
  · have := (hbefore s hs).1
    exact ⟨by omega, fun hle => by omega⟩

/-- **The bytes an owner holds leave it one list of ranges.** -/
theorem eq_of_covers (owner : Owner) (h : mine.Pairwise Range.Before)
    (h' : mine'.Pairwise Range.Before) (hmine : ∀ r ∈ mine, r.owner = owner ∧ r.start < r.stop)
    (hmine' : ∀ r ∈ mine', r.owner = owner ∧ r.start < r.stop)
    (hcovers : ∀ x w, Covers mine x w ↔ Covers mine' x w) : mine = mine' := by
  -- a first range is covered by something
  have hcons : ∀ r l, (∀ s ∈ r :: l, s.owner = owner ∧ s.start < s.stop) →
      ¬ ∀ x w, Covers (r :: l) x w → Covers [] x w := fun r l hl hcover => by
    simpa [Covers] using hcover r.start r.write
      (covers_cons.mpr (.inl ⟨le_rfl, (hl r mem_cons_self).2, rfl⟩))
  induction mine generalizing mine' with
  | nil =>
    cases mine' with
    | nil => rfl
    | cons r' mine' => exact absurd (fun x w => (hcovers x w).mpr) (hcons r' mine' hmine')
  | cons r mine ih =>
    cases mine' with
    | nil => exact absurd (fun x w => (hcovers x w).mp) (hcons r mine hmine)
    | cons r' mine' =>
      obtain ⟨howner, hne⟩ := hmine r mem_cons_self
      obtain ⟨howner', hne'⟩ := hmine' r' mem_cons_self
      obtain ⟨hstart, hreach⟩ := head_reaches hne h' hne' fun x w => (hcovers x w).mp
      obtain ⟨hstart', hreach'⟩ := head_reaches hne' h hne fun x w => (hcovers x w).mpr
      obtain ⟨hwrite, hstop⟩ := hreach hstart'
      obtain ⟨-, hstop'⟩ := hreach' hstart
      obtain rfl : r = r' := by
        cases r
        cases r'
        simp only at *
        simp [hwrite, howner, howner', Nat.le_antisymm hstart' hstart, Nat.le_antisymm hstop hstop']
      obtain ⟨hbefore, hrest⟩ := pairwise_cons.mp h
      obtain ⟨hbefore', hrest'⟩ := pairwise_cons.mp h'
      rw [ih hrest hrest' (fun s hs => hmine s (mem_cons_of_mem r hs))
        (fun s hs => hmine' s (mem_cons_of_mem r hs)) fun x w => ?_]
      rcases Nat.lt_or_ge x r.stop with hx | hx
      · exact iff_of_false (not_covers_of_before hbefore hx) (not_covers_of_before hbefore' hx)
      · have := hcovers x w
        simp only [covers_cons] at this
        grind

end Blocks

/-- The owner's ranges, in order. -/
def Table.block (t : Table) (owner : Owner) : List Range := t.records.filter (·.owner == owner)

theorem mem_block {t : Table} {owner : Owner} {r : Range} :
    r ∈ t.block owner ↔ r ∈ t.records ∧ r.owner = owner := by
  simp [Table.block]

theorem Canonical.block {t t' : Table} (h : Canonical t.records) (h' : Canonical t'.records)
    {owner : Owner} (hsame : ∀ x w, Holds t.records owner x w ↔ Holds t'.records owner x w) :
    t.block owner = t'.block owner := by
  have hblock : ∀ t : Table, Canonical t.records → (t.block owner).Pairwise Range.Before ∧
      (∀ r ∈ t.block owner, r.owner = owner ∧ r.start < r.stop) ∧
      ∀ x w, Covers (t.block owner) x w ↔ Holds t.records owner x w := by
    intro t ht
    refine ⟨?_, fun r hr => ?_, fun x w => ?_⟩
    · refine (ht.ordered.filter _).imp_of_mem fun ha hb hab => hab ?_
      exact (mem_block.mp ha).2.trans (mem_block.mp hb).2.symm
    · obtain ⟨hr, howner⟩ := mem_block.mp hr
      exact ⟨howner, ht.nonempty r hr⟩
    · simp only [Covers, Holds, mem_block, and_assoc]
  obtain ⟨hordered, hmine, hholds⟩ := hblock t h
  obtain ⟨hordered', hmine', hholds'⟩ := hblock t' h'
  exact eq_of_covers owner hordered hordered' hmine hmine' fun x w => by
    rw [hholds, hholds', hsame]

/-- **What is held decides the table.** After any two runs of sections that leave each owner the
same locks on the same bytes, each owner has the same ranges, and every attempt at a lock is
granted, with the same release reported, after both or after neither. -/
theorem held_decides (host : Host) (pid : Int) (sections sections' : List Section)
    (hsame : ∀ owner x write,
      Holds (sections.foldl (Table.step host pid) .empty).records owner x write ↔
        Holds (sections'.foldl (Table.step host pid) .empty).records owner x write) :
    let t := sections.foldl (Table.step host pid) .empty
    let t' := sections'.foldl (Table.step host pid) .empty
    (∀ owner, t.block owner = t'.block owner) ∧ ∀ owner start stop kind,
      (t.attempt owner start stop kind).map Prod.snd =
        (t'.attempt owner start stop kind).map Prod.snd := by
  intro t t'
  have hrun : ∀ sections : List Section,
      Canonical (sections.foldl (Table.step host pid) .empty).records := fun sections =>
    (Runs.always_of_step (I := fun t : Table => Canonical t.records)
      (fun _ s h => h.step host pid s) Canonical.nil sections).last
  have hblock : ∀ owner, t.block owner = t'.block owner := fun owner =>
    (hrun sections).block (hrun sections') (hsame owner)
  refine ⟨hblock, fun owner start stop kind => ?_⟩
  have hset : (t.set owner start stop kind).2 = (t'.set owner start stop kind).2 :=
    congrArg (any · _) (hblock owner)
  have hconflict : ∀ write, (t.conflict owner start stop write).isSome =
      (t'.conflict owner start stop write).isSome := by
    have hmem : ∀ t : Table, ∀ r, r ∈ t.records ↔ r ∈ t.block r.owner := by simp [mem_block]
    intro write
    rw [Bool.eq_iff_iff, conflict_isSome, conflict_isSome]
    simp only [hmem t, hmem t', hblock]
  cases kind with
  | none => exact congrArg some hset
  | some write =>
    simp only [Table.attempt, hconflict write]
    split
    · rfl
    · exact congrArg some hset

def lockBytes (start len : Int) : Section :=
  .fcntl .setlk (some ⟨.write, .set, start, len, 0⟩) ⟨true, true, 0, 0, 1⟩

/-- Ten bytes locked at once, and in two parts that overlap. -/
theorem held_decides_parts :
    (([lockBytes 0 10].foldl (Table.step .linux 1) .empty).attempt (.description 1) 3 5
      (some false)).map Prod.snd =
    (([lockBytes 4 6, lockBytes 0 6].foldl (Table.step .linux 1) .empty).attempt
      (.description 1) 3 5
      (some false)).map Prod.snd :=
  (held_decides .linux 1 [lockBytes 0 10] [lockBytes 4 6, lockBytes 0 6] fun _ _ _ => .rfl).2
    _ _ _ _

end Snare.Locks
