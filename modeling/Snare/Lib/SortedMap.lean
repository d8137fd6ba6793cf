import Mathlib

/-!
# Finite maps as sorted lists of entries

`SortedMap K V` is a list of key-value pairs in strictly increasing order of key, so a map has one
representation and its entries are listed in key order. Every change of one key is an `alter`; its
two facts are what the key maps to afterwards (`get?_alter`) and what the list of entries is up to
order (`alter_perm`), from which sums and counts over the entries follow.
-/

namespace Snare

open List

/-- A finite map: its entries in strictly increasing order of key. -/
structure SortedMap (K V : Type*) [LinearOrder K] where
  entries : List (K × V)
  sorted : entries.Pairwise fun a b => a.1 < b.1
  deriving DecidableEq

namespace SortedMap

variable {K V W : Type*} [LinearOrder K]

def empty : SortedMap K V := ⟨[], .nil⟩

variable (m : SortedMap K V)

def get? (k : K) : Option V :=
  (m.entries.find? fun e => e.1 = k).map Prod.snd

def alter (k : K) (f : Option V → Option V) : SortedMap K V where
  entries := m.entries.filter (fun e => e.1 < k) ++ (f (m.get? k)).toList.map (k, ·) ++
    m.entries.filter (fun e => k < e.1)
  sorted := by
    rw [pairwise_append, pairwise_append]
    refine ⟨⟨m.sorted.filter _, ?_, ?_⟩, m.sorted.filter _, ?_⟩
    · cases f (m.get? k) <;> simp
    · intro a ha b hb
      obtain ⟨v, -, rfl⟩ := mem_map.mp hb
      simpa using (mem_filter.mp ha).2
    · intro a ha b hb
      have hkb : k < b.1 := by simpa using (mem_filter.mp hb).2
      rcases mem_append.mp ha with ha | ha
      · exact lt_trans (by simpa using (mem_filter.mp ha).2) hkb
      · obtain ⟨v, -, rfl⟩ := mem_map.mp ha
        exact hkb

def insert (k : K) (v : V) : SortedMap K V := m.alter k fun _ => some v

def erase (k : K) : SortedMap K V := m.alter k fun _ => none

def modify (k : K) (f : V → V) : SortedMap K V := m.alter k (Option.map f)

def retain (p : K → V → Bool) : SortedMap K V where
  entries := m.entries.filter fun e => p e.1 e.2
  sorted := m.sorted.filter _

def map (f : K → V → W) : SortedMap K W where
  entries := m.entries.map fun e => (e.1, f e.1 e.2)
  sorted := pairwise_map.mpr m.sorted

def size : Nat := m.entries.length

def keys : List K := m.entries.map Prod.fst

def count (p : V → Bool) : Nat := m.entries.countP fun e => p e.2

/-! ## Lookup -/

theorem key_injOn {a b : K × V} (ha : a ∈ m.entries) (hb : b ∈ m.entries)
    (hkey : a.1 = b.1) : a = b := by
  by_contra hne
  have hsymm : m.entries.Pairwise fun a b => a.1 < b.1 ∨ b.1 < a.1 := m.sorted.imp Or.inl
  have : Std.Symm fun a b : K × V => a.1 < b.1 ∨ b.1 < a.1 := ⟨fun _ _ => Or.symm⟩
  rcases hsymm.forall ha hb hne with h | h
  · exact absurd hkey h.ne
  · exact absurd hkey h.ne'

theorem nodup : m.entries.Nodup :=
  m.sorted.imp fun h heq => absurd (congrArg Prod.fst heq) h.ne

variable {k : K} {v : V}

theorem get?_eq_some_iff {m : SortedMap K V} : m.get? k = some v ↔ (k, v) ∈ m.entries := by
  unfold get?
  rw [Option.map_eq_some_iff]
  constructor
  · rintro ⟨⟨k', v'⟩, hfind, rfl⟩
    obtain rfl : k' = k := by simpa using find?_some hfind
    exact mem_of_find?_eq_some hfind
  · intro hmem
    cases hfind : m.entries.find? fun e => e.1 = k with
    | none => simpa using find?_eq_none.mp hfind _ hmem
    | some e =>
      have hkey : e.1 = k := by simpa using find?_some hfind
      exact ⟨e, rfl, by rw [m.key_injOn (mem_of_find?_eq_some hfind) hmem hkey]⟩

theorem mem_keys_iff {m : SortedMap K V} : k ∈ m.keys ↔ ∃ v, m.get? k = some v := by
  simp only [keys, mem_map, get?_eq_some_iff, Prod.exists, exists_and_right, exists_eq_right]

variable {e : K × V}

theorem find?_least {m : SortedMap K V} {p : K × V → Bool} {e' : K × V}
    (h : m.entries.find? p = some e) (he' : e' ∈ m.entries) (hp : p e' = true) : e.1 ≤ e'.1 := by
  obtain ⟨-, before, after, heq, hbefore⟩ := find?_eq_some_iff_append.mp h
  rw [heq, mem_append, mem_cons] at he'
  rcases he' with hmem | rfl | hmem
  · exact absurd hp (by simpa using hbefore e' hmem)
  · exact le_refl _
  · have hsorted := m.sorted
    rw [heq, pairwise_append, pairwise_cons] at hsorted
    exact (hsorted.2.1.1 e' hmem).le

theorem head?_least {m : SortedMap K V} {e' : K × V} (h : m.entries.head? = some e)
    (he' : e' ∈ m.entries) : e.1 ≤ e'.1 := by
  refine find?_least (p := fun _ => true) ?_ he' rfl
  cases hm : m.entries with
  | nil => simp [hm] at h
  | cons a rest => simpa [hm] using h

@[simp] theorem get?_empty (k : K) : (empty : SortedMap K V).get? k = none := rfl

theorem mem_alter {m : SortedMap K V} {f : Option V → Option V} :
    e ∈ (m.alter k f).entries ↔ e.1 = k ∧ f (m.get? k) = some e.2 ∨ e.1 ≠ k ∧ e ∈ m.entries := by
  obtain ⟨k', v⟩ := e
  simp only [alter, mem_append, mem_filter, decide_eq_true_eq, mem_map,
    Option.mem_toList, Prod.mk.injEq]
  constructor
  · rintro ((⟨hmem, hlt⟩ | ⟨v', hf, rfl, rfl⟩) | ⟨hmem, hlt⟩)
    · exact .inr ⟨hlt.ne, hmem⟩
    · exact .inl ⟨rfl, hf⟩
    · exact .inr ⟨hlt.ne', hmem⟩
  · rintro (⟨rfl, hf⟩ | ⟨hne, hmem⟩)
    · exact .inl (.inr ⟨v, hf, rfl, rfl⟩)
    · rcases lt_or_gt_of_ne hne with h | h
      · exact .inl (.inl ⟨hmem, h⟩)
      · exact .inr ⟨hmem, h⟩

theorem get?_alter (k k' : K) (f : Option V → Option V) :
    (m.alter k f).get? k' = if k' = k then f (m.get? k) else m.get? k' := by
  ext v
  rw [get?_eq_some_iff, mem_alter]
  split
  · next h => simp [h]
  · next h => simp [h, get?_eq_some_iff]

theorem get?_insert (k k' : K) (v : V) :
    (m.insert k v).get? k' = if k' = k then some v else m.get? k' :=
  m.get?_alter k k' _

theorem get?_erase (k k' : K) :
    (m.erase k).get? k' = if k' = k then none else m.get? k' :=
  m.get?_alter k k' _

theorem get?_modify (k k' : K) (f : V → V) :
    (m.modify k f).get? k' = if k' = k then (m.get? k).map f else m.get? k' :=
  m.get?_alter k k' _

theorem ext_get? {m m' : SortedMap K V} (h : ∀ k, m.get? k = m'.get? k) : m = m' := by
  have hmem : ∀ e, e ∈ m.entries ↔ e ∈ m'.entries := fun e => by
    rw [← get?_eq_some_iff, ← get?_eq_some_iff, h]
  have hperm := (perm_ext_iff_of_nodup m.nodup m'.nodup).mpr hmem
  have heq : m.entries = m'.entries := hperm.eq_of_pairwise ?_ m.sorted m'.sorted
  · cases m
    cases m'
    simpa using heq
  · intro a b ha hb hab hba
    exact absurd (lt_trans hab hba) (lt_irrefl _)

theorem modify_of_none {m : SortedMap K V} {f : V → V} (h : m.get? k = none) :
    m.modify k f = m := by
  refine ext_get? fun k' => ?_
  rw [get?_modify]
  split
  · next heq => rw [heq, h, Option.map_none]
  · rfl

theorem modify_modify (k : K) (f g : V → V) : (m.modify k f).modify k g = m.modify k (g ∘ f) := by
  refine ext_get? fun k' => ?_
  simp only [get?_modify]
  split
  · simp
  · rfl

theorem get?_foldl_erase (ks : List K) (m : SortedMap K V) (k : K) :
    (ks.foldl erase m).get? k = if k ∈ ks then none else m.get? k := by
  induction ks generalizing m with
  | nil => simp
  | cons k' ks ih =>
    rw [foldl_cons, ih, get?_erase]
    by_cases h₁ : k ∈ ks <;> by_cases h₂ : k = k' <;> simp [h₁, h₂]

theorem get?_retain (p : K → V → Bool) (k : K) : (m.retain p).get? k = (m.get? k).filter (p k) := by
  ext v
  simp only [get?_eq_some_iff, retain, mem_filter, Option.filter_eq_some_iff]

theorem get?_map (f : K → V → W) (k : K) : (m.map f).get? k = (m.get? k).map (f k) := by
  ext w
  simp only [get?_eq_some_iff, map, mem_map, Prod.mk.injEq, Prod.exists,
    Option.map_eq_some_iff]
  constructor
  · rintro ⟨k', v, hmem, rfl, rfl⟩
    exact ⟨v, hmem, rfl⟩
  · rintro ⟨v, hmem, rfl⟩
    exact ⟨k, v, hmem, rfl, rfl⟩

/-! ## The entries up to order -/

def others (k : K) : List (K × V) := m.entries.filter fun e => e.1 ≠ k

private theorem others_perm (k : K) : (m.others k).Perm (m.entries.filter (fun e => e.1 < k) ++
      m.entries.filter (fun e => k < e.1)) := by
  have hsplit := (filter_append_perm (fun e : K × V => decide (e.1 < k)) (m.others k)).symm
  refine hsplit.trans (List.Perm.of_eq ?_)
  unfold others
  rw [filter_filter, filter_filter]
  congr 1
  · refine filter_congr fun e _ => ?_
    simp only [Bool.and_eq_left_iff_imp, decide_eq_true_eq, ne_eq, decide_not,
      Bool.not_eq_true', decide_eq_false_iff_not]
    exact fun h => h.ne
  · refine filter_congr fun e _ => ?_
    rw [Bool.eq_iff_iff]
    simp only [Bool.and_eq_true, Bool.not_eq_true', decide_eq_false_iff_not, not_lt,
      decide_eq_true_eq, ne_eq]
    exact ⟨fun h => lt_of_le_of_ne h.1 (Ne.symm h.2), fun h => ⟨h.le, h.ne'⟩⟩

theorem alter_perm (k : K) (f : Option V → Option V) :
    (m.alter k f).entries.Perm ((f (m.get? k)).toList.map (k, ·) ++ m.others k) := by
  refine (List.Perm.append_right _ perm_append_comm).trans ?_
  rw [append_assoc]
  exact (m.others_perm k).symm.append_left _

theorem entries_perm (k : K) : m.entries.Perm ((m.get? k).toList.map (k, ·) ++ m.others k) := by
  have hself : m.entries.Perm (m.alter k id).entries := by
    refine (perm_ext_iff_of_nodup m.nodup (m.alter k id).nodup).mpr fun e => ?_
    obtain ⟨k', v⟩ := e
    rw [mem_alter, id, get?_eq_some_iff]
    by_cases h : k' = k
    · simp [h]
    · simp [h]
  exact hself.trans (m.alter_perm k id)

theorem size_alter (k : K) (f : Option V → Option V) :
    (m.alter k f).size + (m.get? k).toList.length = m.size + (f (m.get? k)).toList.length := by
  have h₁ := (m.alter_perm k f).length_eq
  have h₂ := (m.entries_perm k).length_eq
  simp only [length_append, length_map] at h₁ h₂
  simp only [size]
  omega

theorem count_alter (k : K) (f : Option V → Option V) (p : V → Bool) :
    (m.alter k f).count p + (m.get? k).toList.countP p
      = m.count p + (f (m.get? k)).toList.countP p := by
  have hown : ∀ o : Option V,
      (o.toList.map (k, ·)).countP (fun e => p e.2) = o.toList.countP p := by
    intro o
    rw [countP_map]
    rfl
  have h₁ := (m.alter_perm k f).countP_eq fun e => p e.2
  have h₂ := (m.entries_perm k).countP_eq fun e => p e.2
  rw [countP_append, hown] at h₁ h₂
  simp only [count]
  omega

theorem nodup_keys : m.keys.Nodup :=
  pairwise_map.mpr (m.sorted.imp fun h => h.ne)

theorem length_filter_keys (p : V → Bool) :
    (m.keys.filter fun k => (m.get? k).any p).length = m.count p := by
  rw [keys, filter_map, length_map, count, countP_eq_length_filter]
  congr 1
  refine filter_congr fun e he => ?_
  rw [Function.comp_apply, get?_eq_some_iff.mpr he, Option.any_some]

variable {p : V → Bool}

theorem count_eq_zero {m : SortedMap K V} :
    m.count p = 0 ↔ ∀ k v, m.get? k = some v → p v = false := by
  simp only [count, countP_eq_zero, get?_eq_some_iff, Prod.forall, Bool.not_eq_true]

theorem count_pos {m : SortedMap K V} (hv : m.get? k = some v) (hp : p v) : 0 < m.count p := by
  rw [Nat.pos_iff_ne_zero]
  intro h
  simp [count_eq_zero.mp h k v hv] at hp

theorem count_modify {m : SortedMap K V} (hv : m.get? k = some v) (f : V → V)
    (p : V → Bool) : (m.modify k f).count p + (p v).toNat = m.count p + (p (f v)).toNat := by
  have hshare : ∀ v : V, (some v).toList.countP p = (p v).toNat := by
    intro v
    cases hp : p v <;> simp [hp]
  have h := m.count_alter k (Option.map f) p
  rwa [hv, Option.map_some, hshare, hshare] at h

theorem count_modify_eq (k : K) {f : V → V}
    (hp : ∀ v, p (f v) = p v) : (m.modify k f).count p = m.count p := by
  cases hv : m.get? k with
  | none => rw [modify_of_none hv]
  | some v =>
    have h := count_modify hv f p
    rw [hp] at h
    omega

theorem count_erase {m : SortedMap K V}
    (h : ∀ v, m.get? k = some v → p v = false) : (m.erase k).count p = m.count p := by
  have hown : (m.get? k).toList.countP p = 0 := by
    rw [countP_eq_zero]
    intro v hv
    simp [h v (by simpa using hv)]
  have hcount := m.count_alter k (fun _ => none) p
  rw [hown, Option.toList_none, countP_nil] at hcount
  exact hcount

theorem count_erase_of_some {m : SortedMap K V} (hv : m.get? k = some v)
    (p : V → Bool) : (m.erase k).count p + (p v).toNat = m.count p := by
  have hshare : (some v).toList.countP p = (p v).toNat := by
    cases hp : p v <;> simp [hp]
  have h := m.count_alter k (fun _ => none) p
  rw [hv, hshare, Option.toList_none, countP_nil, Nat.add_zero] at h
  exact h

theorem count_alter_of_none {m : SortedMap K V} {f : Option V → Option V} (hk : m.get? k = none)
    (hf : f none = some v) (hp : p v = false) :
    (m.alter k f).count p = m.count p := by
  have hcount := m.count_alter k f p
  rw [hk, hf] at hcount
  simpa [hp] using hcount

theorem count_add {q r : V → Bool}
    (h : ∀ v, (p v).toNat = (q v).toNat + (r v).toNat) : m.count p = m.count q + m.count r := by
  simp only [count]
  induction m.entries with
  | nil => rfl
  | cons e es ih =>
    have he := h e.2
    cases hp : p e.2 <;> cases hq : q e.2 <;> cases hr : r e.2 <;> simp_all <;> omega

theorem count_map (f : V → W) (p : W → Bool) : (m.map fun _ => f).count p = m.count (p ∘ f) := by
  simp [count, map, countP_map, Function.comp_def]

theorem size_retain_le (p : K → V → Bool) : (m.retain p).size ≤ m.size :=
  length_filter_le _ _

end SortedMap

end Snare
