import Snare.Lib.SortedMap

/-!
# Moving part of a tree kept as a map of paths

A tree of names can be kept as one flat map from paths, each path a list of names from the root.
Moving a subtree is then a change of keys.

* **`SortedMap.tally`**: how many entries satisfy a predicate, and what an insertion or a removal
  does to it;
* **`SortedMap.relocate`**: the entries of some keys move to other keys: **`get?_relocate`** says
  where each is found, and **`tally_relocate`** what counts become;
* **`rebase`**: the change of paths that moves the subtree at one path to another.
-/

namespace Snare

open List

namespace SortedMap

variable {K V : Type*} [LinearOrder K]

/-! ## Counting entries -/

def tally (m : SortedMap K V) (p : K → V → Bool) : Nat := m.entries.countP fun e => p e.1 e.2

variable {m : SortedMap K V} {k : K} {v : V}

theorem tally_insert (hk : m.get? k = none) (v : V) (p : K → V → Bool) :
    (m.insert k v).tally p = m.tally p + (p k v).toNat := by
  have h₁ := (m.alter_perm k fun _ => some v).countP_eq fun e => p e.1 e.2
  have h₂ := (m.entries_perm k).countP_eq fun e => p e.1 e.2
  rw [hk] at h₂
  simp only [tally, insert]
  rw [h₁, h₂]
  cases hp : p k v <;> simp [hp]

theorem tally_erase (hk : m.get? k = some v) (p : K → V → Bool) :
    (m.erase k).tally p + (p k v).toNat = m.tally p := by
  have h₁ := (m.alter_perm k fun _ => none).countP_eq fun e => p e.1 e.2
  have h₂ := (m.entries_perm k).countP_eq fun e => p e.1 e.2
  rw [hk] at h₂
  simp only [tally, erase]
  rw [h₁, h₂]
  cases hp : p k v <;> simp [hp]

theorem tally_congr {p q : K → V → Bool} (h : ∀ k v, m.get? k = some v → p k v = q k v) :
    m.tally p = m.tally q := by
  refine countP_congr fun e he => ?_
  rw [h e.1 e.2 (get?_eq_some_iff.mpr he)]

theorem tally_eq_zero {p : K → V → Bool} (h : ∀ k v, m.get? k = some v → p k v = false) :
    m.tally p = 0 := by
  refine countP_eq_zero.mpr fun e he => ?_
  rw [h e.1 e.2 (get?_eq_some_iff.mpr he)]
  exact Bool.false_ne_true

/-! ## Moving entries to other keys -/

/-- Moves the entries of the keys `ks` to the keys `f` gives: all are taken out, then all put in. -/
def relocate (m : SortedMap K V) (ks : List K) (f : K → K) : SortedMap K V :=
  (ks.filterMap fun k => (m.get? k).map (f k, ·)).foldl (fun m e => m.insert e.1 e.2)
    (ks.foldl erase m)

theorem get?_foldl_insert {es : List (K × V)} (hnodup : (es.map Prod.fst).Nodup)
    (m : SortedMap K V) (k : K) (v : V) :
    (es.foldl (fun m e => m.insert e.1 e.2) m).get? k = some v ↔
      (k, v) ∈ es ∨ k ∉ es.map Prod.fst ∧ m.get? k = some v := by
  induction es generalizing m with
  | nil => simp
  | cons e es ih =>
    obtain ⟨k', v'⟩ := e
    obtain ⟨hnew, hnodup⟩ := nodup_cons.mp hnodup
    rw [foldl_cons, ih hnodup, get?_insert]
    by_cases hk : k = k'
    · subst hk
      have hnot : ∀ v, (k, v) ∉ es := fun v hmem => hnew (mem_map.mpr ⟨(k, v), hmem, rfl⟩)
      simp [hnot, eq_comm]
    · simp [hk]

def sent (ks : List K) (f : K → K) (k : K) : K := if k ∈ ks then f k else k

variable {ks : List K} {f : K → K}

theorem get?_relocate (hinj : ∀ k v k' v', m.get? k = some v → m.get? k' = some v' →
      sent ks f k = sent ks f k' → k = k') (hks : ks.Nodup) (k : K) (v : V) :
    (m.relocate ks f).get? k = some v ↔ ∃ k', sent ks f k' = k ∧ m.get? k' = some v := by
  have hmem : ∀ k v, (k, v) ∈ ks.filterMap (fun k => (m.get? k).map (f k, ·)) ↔
      ∃ k' ∈ ks, m.get? k' = some v ∧ f k' = k := by
    intro k v
    simp only [mem_filterMap, Option.map_eq_some_iff, Prod.mk.injEq]
    constructor
    · rintro ⟨k', hk', v', hv', rfl, rfl⟩
      exact ⟨k', hk', hv', rfl⟩
    · rintro ⟨k', hk', hv', rfl⟩
      exact ⟨k', hk', v, hv', rfl, rfl⟩
  have hnodup : ((ks.filterMap fun k => (m.get? k).map (f k, ·)).map Prod.fst).Nodup := by
    refine pairwise_map.mpr (pairwise_filterMap.mpr ?_)
    refine hks.imp_of_mem fun {k k'} hk hk' hne e he e' he' heq => hne ?_
    obtain ⟨v, hv, rfl⟩ := Option.map_eq_some_iff.mp he
    obtain ⟨v', hv', rfl⟩ := Option.map_eq_some_iff.mp he'
    refine hinj k v k' v' hv hv' ?_
    rw [sent, sent, if_pos hk, if_pos hk']
    exact heq
  have hfst : ∀ k, k ∈ (ks.filterMap fun k => (m.get? k).map (f k, ·)).map Prod.fst ↔
      ∃ k' ∈ ks, ∃ v, m.get? k' = some v ∧ f k' = k := by
    intro k
    rw [mem_map]
    constructor
    · rintro ⟨⟨k, v⟩, hmem', rfl⟩
      obtain ⟨k', hk', h⟩ := (hmem k v).mp hmem'
      exact ⟨k', hk', v, h⟩
    · rintro ⟨k', hk', v, h⟩
      exact ⟨(k, v), (hmem k v).mpr ⟨k', hk', h⟩, rfl⟩
  rw [relocate, get?_foldl_insert hnodup, hmem, hfst, get?_foldl_erase]
  constructor
  · rintro (⟨k', hk', hv, rfl⟩ | ⟨-, hv⟩)
    · exact ⟨k', if_pos hk', hv⟩
    · split at hv
      · cases hv
      · next hk => exact ⟨k, if_neg hk, hv⟩
  · rintro ⟨k', rfl, hv⟩
    by_cases hk' : k' ∈ ks
    · exact .inl ⟨k', hk', hv, (if_pos hk').symm⟩
    · have hstays : sent ks f k' = k' := if_neg hk'
      refine .inr ⟨?_, by rw [hstays, if_neg hk', hv]⟩
      -- no other entry was put where this one stays
      rintro ⟨k'', hk'', v'', hv'', heq⟩
      have hmeet : sent ks f k'' = sent ks f k' := (if_pos hk'').trans heq
      exact hk' (hinj k'' v'' k' v hv'' hv hmeet ▸ hk'')

theorem tally_relocate (hinj : ∀ k v k' v', m.get? k = some v → m.get? k' = some v' →
      sent ks f k = sent ks f k' → k = k') (hks : ks.Nodup) (p : K → V → Bool) :
    (m.relocate ks f).tally p = m.tally fun k v => p (sent ks f k) v := by
  have hperm : (m.relocate ks f).entries.Perm (m.entries.map fun e => (sent ks f e.1, e.2)) := by
    have hnodup : (m.entries.map fun e => (sent ks f e.1, e.2)).Nodup := by
      refine List.Nodup.map_on (fun e he e' he' heq => ?_) m.nodup
      obtain ⟨hkey, hval⟩ := Prod.mk.inj heq
      exact Prod.ext
        (hinj e.1 e.2 e'.1 e'.2 (get?_eq_some_iff.mpr he) (get?_eq_some_iff.mpr he') hkey)
        hval
    refine (perm_ext_iff_of_nodup (nodup _) hnodup).mpr fun e => ?_
    obtain ⟨k, v⟩ := e
    rw [← get?_eq_some_iff, get?_relocate hinj hks, mem_map]
    constructor
    · rintro ⟨k', rfl, hv⟩
      exact ⟨(k', v), get?_eq_some_iff.mp hv, rfl⟩
    · rintro ⟨e, he, heq⟩
      cases heq
      exact ⟨e.1, rfl, get?_eq_some_iff.mpr he⟩
  rw [tally, hperm.countP_eq, countP_map]
  rfl

end SortedMap

/-! ## Paths -/

section Rebase

variable {α : Type*} [DecidableEq α] {src dst p q : List α}

/-- The path `p` once the subtree at `src` is moved to `dst`. -/
def rebase (src dst p : List α) : List α := if src <+: p then dst ++ p.drop src.length else p

theorem rebase_append (r : List α) : rebase src dst (src ++ r) = dst ++ r := by
  rw [rebase, if_pos (prefix_append src r), drop_left]

theorem rebase_self : rebase src dst src = dst := by
  have h : rebase src dst (src ++ []) = dst ++ [] := rebase_append []
  rwa [append_nil, append_nil] at h

theorem rebase_outside (h : ¬ src <+: p) : rebase src dst p = p := if_neg h

theorem rebase_inj (hp : ¬ dst <+: p) (hq : ¬ dst <+: q) (h : rebase src dst p = rebase src dst q) :
    p = q := by
  by_cases hsp : src <+: p
  · obtain ⟨r, rfl⟩ := hsp
    rw [rebase_append] at h
    by_cases hsq : src <+: q
    · obtain ⟨r', rfl⟩ := hsq
      rw [rebase_append] at h
      rw [append_cancel_left h]
    · rw [rebase_outside hsq] at h
      exact absurd ⟨r, h⟩ hq
  · rw [rebase_outside hsp] at h
    by_cases hsq : src <+: q
    · obtain ⟨r', rfl⟩ := hsq
      rw [rebase_append] at h
      exact absurd ⟨r', h.symm⟩ hp
    · rwa [rebase_outside hsq] at h

theorem dropLast_rebase (hne : p ≠ src) :
    (rebase src dst p).dropLast = rebase src dst p.dropLast := by
  by_cases hsp : src <+: p
  · obtain ⟨r, rfl⟩ := hsp
    have hr : r ≠ [] := by
      rintro rfl
      exact hne (append_nil src)
    rw [rebase_append, dropLast_append_of_ne_nil hr, dropLast_append_of_ne_nil hr,
      rebase_append]
  · have hparent : ¬ src <+: p.dropLast := fun h => hsp (h.trans ( dropLast_prefix p))
    rw [rebase_outside hsp, rebase_outside hparent]

end Rebase

end Snare
