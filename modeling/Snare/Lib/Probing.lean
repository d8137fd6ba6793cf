import Mathlib

/-!
# Linear probing around a ring of slots

Positions of a ring are `Fin n`, whose addition wraps around. `dist a b` counts the steps from `a`
forward to `b`; a probe for a key steps from the key's home until it meets the key or a free slot.

* **`Table`**: no free slot lies between the home of an entry's key and the entry, and no key has
  two entries; so a probe that ends at a free slot has shown its key to be absent (`Table.absent`).
* **`Shifting`**: what holds while entries are moved back over the hole a removed entry left.
  `Shifting.move` and `Shifting.skip` are the two steps over an entry, and a free slot ends it with
  a table again (`Shifting.finish`).
-/

namespace Snare.Probing

open Function

section Ring
variable {n : Nat}

def dist (a b : Fin n) : Nat := (b - a).val

theorem dist_eq (a b : Fin n) :
    dist a b = if a.val ≤ b.val then b.val - a.val else b.val + n - a.val := by
  unfold dist
  split
  · rename_i hle
    exact Fin.sub_val_of_le hle
  · rename_i hlt
    rw [Fin.coe_sub_iff_lt.2 (Fin.lt_def.2 (not_le.1 hlt))]
    omega

theorem dist_lt (a b : Fin n) : dist a b < n := (b - a).isLt

@[simp] theorem dist_self (a : Fin n) : dist a a = 0 := by
  rw [dist_eq, if_pos le_rfl, Nat.sub_self]

variable {a b p : Fin n}

theorem dist_inj {c : Fin n} (h : dist a b = dist a c) : b = c := by
  simp only [dist_eq] at h
  apply Fin.ext
  split_ifs at h <;> omega

theorem dist_split (h : dist a p ≤ dist a b) : dist a p + dist p b = dist a b := by
  simp only [dist_eq] at *
  split_ifs at * <;> omega

theorem dist_way {k : Fin n} (h : dist p k ≤ dist a k) : dist a p ≤ dist a k := by
  simp only [dist_eq] at *
  split_ifs at * <;> omega

theorem dist_between {k i : Fin n} (hp : dist a p ≤ dist a i) (hk : dist p k < dist p i) :
    dist a k < dist a i := by
  rw [← dist_split hp]
  have hlt := dist_lt a i
  rw [← dist_split hp] at hlt
  simp only [dist_eq] at *
  split_ifs at * <;> omega

variable [NeZero n]

theorem succ_val (i : Fin n) : (i + 1).val = if i.val + 1 = n then 0 else i.val + 1 := by
  rw [Fin.val_add, Fin.val_one', Nat.add_mod_mod]
  split
  · rename_i hlast
    rw [hlast, Nat.mod_self]
  · exact Nat.mod_eq_of_lt (by omega)

theorem dist_succ (h : dist a b + 1 < n) : dist a (b + 1) = dist a b + 1 := by
  rw [dist_eq, dist_eq, succ_val] at *
  split_ifs at * <;> omega

theorem dist_next (h : a ≠ b) : dist a b = dist (a + 1) b + 1 := by
  rw [dist_eq, dist_eq, succ_val]
  split_ifs <;> omega

end Ring

variable {n : Nat} {κ ν : Type}

section
variable [NeZero n] [DecidableEq κ] (free : κ) (home : κ → Fin n)

/-- The slots from `i` on, at most `fuel` of them, up to the first that holds `a` or is free. -/
def probe (s : Fin n → κ × ν) (a : κ) : Nat → Fin n → Option (Fin n)
  | 0, _ => none
  | fuel + 1, i => if (s i).1 = a ∨ (s i).1 = free then some i else probe s a fuel (i + 1)

/-- The entries after `j`, at most `fuel`, up to a free slot: each one whose way from its home leads
over the hole is moved into it, and the hole to where it was. -/
def shift (s : Fin n → κ × ν) (hole : Fin n) : Nat → Fin n → Option ((Fin n → κ × ν) × Fin n)
  | 0, _ => none
  | fuel + 1, j =>
    let j := j + 1
    if (s j).1 = free then some (s, hole)
    else if j - hole ≤ j - home (s j).1 then shift (update s hole (s j)) j fuel j
    else shift s hole fuel j

end

structure Table (free : κ) (home : κ → Fin n) (s : Fin n → κ × ν) : Prop where
  reach : ∀ i, (s i).1 ≠ free → ∀ p, dist (home (s i).1) p < dist (home (s i).1) i → (s p).1 ≠ free
  distinct : ∀ i j, (s i).1 ≠ free → (s i).1 = (s j).1 → i = j

/-- A probe for `a` ended at `r`. -/
def Probed (free : κ) (home : κ → Fin n) (s : Fin n → κ × ν) (a : κ) (r : Fin n) : Prop :=
  ((s r).1 = a ∨ (s r).1 = free) ∧
    ∀ p, dist (home a) p < dist (home a) r → (s p).1 ≠ a ∧ (s p).1 ≠ free

section
variable {free : κ} {home : κ → Fin n} {s : Fin n → κ × ν} {a : κ}

namespace Table

variable {r : Fin n}

theorem absent (ht : Table free home s) (hr : Probed free home s a r) (ha : a ≠ free)
    (hfree : (s r).1 = free) (i : Fin n) : (s i).1 ≠ a := by
  intro hi
  rcases lt_trichotomy (dist (home a) i) (dist (home a) r) with hlt | heq | hgt
  · exact (hr.2 i hlt).1 hi
  · rw [dist_inj heq, hfree] at hi
    exact ha hi.symm
  · refine ht.reach i (hi ▸ ha) r ?_ hfree
    rw [hi]
    exact hgt

theorem put (ht : Table free home s) (hr : Probed free home s a r) (ha : a ≠ free)
    (hfree : (s r).1 = free) (o : ν) : Table free home (update s r (a, o)) := by
  have hoff {i : Fin n} (hi : i ≠ r) : update s r (a, o) i = s i :=
    update_of_ne hi _ _
  have hat : update s r (a, o) r = (a, o) := update_self r _ s
  have hocc {p : Fin n} (hp : (s p).1 ≠ free) : (update s r (a, o) p).1 ≠ free := by
    by_cases hpr : p = r
    · exact absurd hfree (hpr ▸ hp)
    · rwa [hoff hpr]
  refine ⟨fun i hi p hp => ?_, fun i j hi hij => ?_⟩
  · by_cases hir : i = r
    · subst hir
      rw [hat] at hp
      exact hocc (hr.2 p hp).2
    · rw [hoff hir] at hi hp
      exact hocc (ht.reach i hi p hp)
  · by_cases hir : i = r <;> by_cases hjr : j = r
    · rw [hir, hjr]
    · rw [hir, hat, hoff hjr] at hij
      exact absurd hij.symm (ht.absent hr ha hfree j)
    · rw [hjr, hat, hoff hir] at hij
      exact absurd hij (ht.absent hr ha hfree i)
    · rw [hoff hir] at hi hij
      rw [hoff hjr] at hij
      exact ht.distinct i j hi hij

theorem set (ht : Table free home s) (hr : (s r).1 = a) (o : ν) :
    Table free home (update s r (a, o)) := by
  have hkey (i : Fin n) : (update s r (a, o) i).1 = (s i).1 := by
    by_cases hi : i = r
    · rw [hi, update_self, hr]
    · rw [update_of_ne hi]
  refine ⟨fun i hi p hp => ?_, fun i j hi hij => ?_⟩
  · simp only [hkey] at *
    exact ht.reach i hi p hp
  · simp only [hkey] at *
    exact ht.distinct i j hi hij

end Table

/-! ## Closing the hole of a removed entry -/

/-- Entries up to `j` have been moved back over the hole that removing the entry at `hole₀` left:
what is at the hole is a copy, and only entries further on can have it on their way. -/
structure Shifting (free : κ) (home : κ → Fin n) (s₀ : Fin n → κ × ν) (hole₀ : Fin n)
    (s : Fin n → κ × ν) (hole j : Fin n) : Prop where
  free_iff : ∀ p, (s p).1 = free ↔ (s₀ p).1 = free
  scanned : ∀ p, dist hole p ≤ dist hole j → (s p).1 ≠ free
  distinct : ∀ i k, i ≠ hole → k ≠ hole → (s i).1 ≠ free → (s i).1 = (s k).1 → i = k
  reach : ∀ i, i ≠ hole → (s i).1 ≠ free → ∀ p, dist (home (s i).1) p < dist (home (s i).1) i →
      (s p).1 ≠ free ∧ (p = hole → dist hole j < dist hole i)
  entries : ∀ e, e.1 ≠ free → ((∃ i, i ≠ hole ∧ s i = e) ↔ ∃ i, i ≠ hole₀ ∧ s₀ i = e)

theorem Table.shifting (ht : Table free home s) {hole : Fin n} (hocc : (s hole).1 ≠ free) :
    Shifting free home s hole s hole hole where
  free_iff _ := Iff.rfl
  scanned p hp := by
    rw [dist_self, Nat.le_zero] at hp
    rwa [dist_inj (hp.trans (dist_self hole).symm)]
  distinct i k _ _ := ht.distinct i k
  reach i hi hi' p hp := ⟨ht.reach i hi' p hp, fun _ => by
    rw [dist_self]
    exact Nat.pos_of_ne_zero fun h => hi (dist_inj (h.trans (dist_self hole).symm))⟩
  entries _ _ := Iff.rfl

namespace Shifting

variable {s₀ : Fin n → κ × ν} {hole₀ hole j : Fin n}

theorem next [NeZero n] (h : Shifting free home s₀ hole₀ s hole j) {q : Fin n}
    (hq : (s₀ q).1 = free) : dist hole (j + 1) = dist hole j + 1 ∧ j ≠ q := by
  have hpast : dist hole j < dist hole q :=
    lt_of_not_ge fun hle => h.scanned q hle ((h.free_iff q).2 hq)
  refine ⟨dist_succ (lt_of_le_of_lt hpast (dist_lt hole q)), ?_⟩
  rintro rfl
  exact lt_irrefl _ hpast

variable {k : Fin n}

section

variable (h : Shifting free home s₀ hole₀ s hole j)
include h

section

variable (hk : dist hole k = dist hole j + 1)
include hk

theorem skip (hocc : (s k).1 ≠ free)
    (hoff : dist (home (s k).1) k < dist hole k) : Shifting free home s₀ hole₀ s hole k where
  free_iff := h.free_iff
  scanned p hp := by
    rcases Nat.le_or_eq_of_le_succ (hk ▸ hp) with hle | heq
    · exact h.scanned p hle
    · rwa [dist_inj (heq.trans hk.symm)]
  distinct := h.distinct
  reach i hi hi' p hp := by
    obtain ⟨hfree, hhole⟩ := h.reach i hi hi' p hp
    refine ⟨hfree, fun hp' => ?_⟩
    subst hp'
    rcases Nat.lt_or_ge (dist p k) (dist p i) with hlt | hge
    · exact hlt
    · -- only the entry just looked at lies between, and the hole is not on its way
      obtain rfl : i = k := dist_inj (by omega : dist p i = dist p k)
      have := dist_split (le_of_lt hp)
      omega
  entries := h.entries

theorem move (hocc : (s k).1 ≠ free)
    (hon : dist hole k ≤ dist (home (s k).1) k) :
    Shifting free home s₀ hole₀ (update s hole (s k)) k k := by
  have hne : k ≠ hole := by
    rintro rfl
    rw [dist_self] at hk
    omega
  have hoff {i : Fin n} (hi : i ≠ hole) : update s hole (s k) i = s i :=
    update_of_ne hi _ _
  have hat : update s hole (s k) hole = s k := update_self hole _ s
  have hkey (p : Fin n) : (update s hole (s k) p).1 = free ↔ (s p).1 = free := by
    by_cases hp : p = hole
    · rw [hp, hat, iff_false_left hocc]
      exact h.scanned hole (by simp)
    · rw [hoff hp]
  have hzero {i : Fin n} (hi : i ≠ k) : dist k k < dist k i := by
    rw [dist_self]
    exact Nat.pos_of_ne_zero fun hz => hi (dist_inj (hz.trans (dist_self k).symm))
  -- the hole lies on the way from the entry's home
  have hway := dist_way hon
  refine ⟨fun p => (hkey p).trans (h.free_iff p), fun p hp => ?_, fun i m hi hm hi' him => ?_,
    fun i hi hi' p hp => ?_, fun e he => ?_⟩
  · rw [dist_self, Nat.le_zero] at hp
    rw [dist_inj (hp.trans (dist_self k).symm), hoff hne]
    exact hocc
  · by_cases hih : i = hole <;> by_cases hmh : m = hole
    · rw [hih, hmh]
    · rw [hih, hat, hoff hmh] at him
      exact absurd (h.distinct k m hne hmh hocc him).symm hm
    · rw [hmh, hat, hoff hih] at him
      exact absurd (h.distinct k i hne hih hocc him.symm).symm hi
    · rw [hoff hih] at hi' him
      rw [hoff hmh] at him
      exact h.distinct i m hih hmh hi' him
  · by_cases hih : i = hole
    · subst hih
      rw [hat] at hp
      refine ⟨mt (hkey p).1 (h.reach k hne hocc p (lt_of_lt_of_le hp hway)).1, fun hpk => ?_⟩
      exact absurd hp (by rw [hpk]; exact not_lt.2 hway)
    · rw [hoff hih] at hi' hp
      exact ⟨mt (hkey p).1 (h.reach i hih hi' p hp).1, fun _ => hzero hi⟩
  · rw [← h.entries e he]
    constructor
    · rintro ⟨i, hi, rfl⟩
      by_cases hih : i = hole
      · exact ⟨k, hne, by rw [hih, hat]⟩
      · exact ⟨i, hih, by rw [hoff hih]⟩
    · rintro ⟨i, hi, rfl⟩
      by_cases hik : i = k
      · exact ⟨hole, hne.symm, by rw [hat, hik]⟩
      · exact ⟨i, hik, hoff hi⟩

theorem finish (hfree : (s k).1 = free) (o : ν) :
    Table free home (update s hole (free, o)) := by
  have hoff {i : Fin n} (hi : (update s hole (free, o) i).1 ≠ free) : i ≠ hole := by
    rintro rfl
    rw [update_self] at hi
    exact hi rfl
  have hsame {i : Fin n} (hi : i ≠ hole) : update s hole (free, o) i = s i :=
    update_of_ne hi _ _
  refine ⟨fun i hi p hp => ?_, fun i m hi him => ?_⟩
  · have hih := hoff hi
    rw [hsame hih] at hi hp
    obtain ⟨hocc, hhole⟩ := h.reach i hih hi p hp
    have hph : p ≠ hole := by
      rintro rfl
      have hik : dist p i ≠ dist p k := fun heq => hi (dist_inj heq ▸ hfree)
      -- the free slot would lie on the entry's way
      exact (h.reach i hih hi k (dist_between (le_of_lt hp) (by omega))).1 hfree
    rwa [hsame hph]
  · have hih := hoff hi
    have hmh := hoff (him ▸ hi)
    rw [hsame hih] at hi him
    rw [hsame hmh] at him
    exact h.distinct i m hih hmh hi him

end

theorem entries_update (o : ν) {e : κ × ν}
    (he : e.1 ≠ free) : (∃ i, update s hole (free, o) i = e) ↔ ∃ i, i ≠ hole₀ ∧ s₀ i = e := by
  rw [← h.entries e he]
  constructor
  · rintro ⟨i, hi⟩
    have hih : i ≠ hole := by
      rintro rfl
      rw [update_self] at hi
      exact he (congrArg Prod.fst hi).symm
    exact ⟨i, hih, by rwa [update_of_ne hih] at hi⟩
  · rintro ⟨i, hih, hi⟩
    exact ⟨i, by rwa [update_of_ne hih]⟩

end

end Shifting

end

/-! ## The loops -/

section
variable [NeZero n] [DecidableEq κ] {free : κ} {home : κ → Fin n} {s : Fin n → κ × ν} {a : κ}
  {q : Fin n}

theorem probe_spec (hq : (s q).1 = free) {fuel : Nat} {h i : Fin n}
    (hbefore : ∀ p, dist h p < dist h i → (s p).1 ≠ a ∧ (s p).1 ≠ free)
    (hreach : dist h q < dist h i + fuel) :
    ∃ r, probe free s a fuel i = some r ∧ ((s r).1 = a ∨ (s r).1 = free) ∧
      ∀ p, dist h p < dist h r → (s p).1 ≠ a ∧ (s p).1 ≠ free := by
  induction fuel generalizing i with
  | zero => exact absurd hq (hbefore q hreach).2
  | succ fuel ih =>
    unfold probe
    split
    · rename_i hstop
      exact ⟨i, rfl, hstop, hbefore⟩
    · rename_i hgo
      rw [not_or] at hgo
      -- the free slot is further on, so the next step does not come around to `h`
      have hpast : dist h i < dist h q := by
        rcases lt_trichotomy (dist h i) (dist h q) with hlt | heq | hgt
        · exact hlt
        · exact absurd (dist_inj heq ▸ hq) hgo.2
        · exact absurd hq (hbefore q hgt).2
      have hnext := dist_succ (lt_of_le_of_lt hpast (dist_lt h q))
      refine ih (fun p hp => ?_) (by omega)
      rcases Nat.lt_succ_iff_lt_or_eq.1 (hnext ▸ hp) with hlt | heq
      · exact hbefore p hlt
      · rw [dist_inj heq]
        exact hgo

theorem exists_probed (home : κ → Fin n) (hq : (s q).1 = free) :
    ∃ r, probe free s a n (home a) = some r ∧ Probed free home s a r :=
  probe_spec hq (fun p hp => absurd hp (by simp)) (by have := dist_lt (home a) q; simpa using this)

/-- **Closing the hole ends, with a table of the other entries.** A free slot ahead bounds the
steps. -/
theorem shift_spec {s₀ : Fin n → κ × ν} {hole₀ : Fin n} (hq : (s₀ q).1 = free) {fuel : Nat}
    {hole j : Fin n} (h : Shifting free home s₀ hole₀ s hole j) (hfuel : dist j q ≤ fuel) :
    ∃ s' hole' j', shift free home s hole fuel j = some (s', hole') ∧
      Shifting free home s₀ hole₀ s' hole' j' ∧
      ∀ o, Table free home (update s' hole' (free, o)) := by
  induction fuel generalizing s hole j with
  | zero =>
    obtain ⟨-, hne⟩ := h.next hq
    exact absurd (dist_inj ((Nat.le_zero.1 hfuel).trans (dist_self j).symm)).symm hne
  | succ fuel ih =>
    obtain ⟨hk, hne⟩ := h.next hq
    have hrest : dist (j + 1) q ≤ fuel := by
      have := dist_next hne
      omega
    unfold shift
    dsimp only
    split
    · rename_i hfree
      exact ⟨s, hole, j, rfl, h, h.finish hk hfree⟩
    · rename_i hocc
      split
      · rename_i hon
        exact ih (h.move hk hocc hon) hrest
      · rename_i hoff
        exact ih (h.skip hk hocc (not_le.1 hoff)) hrest

end

end Snare.Probing
