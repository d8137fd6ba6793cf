import Snare.Lib.Probing

/-!
# Which thread holds each mutex

The schedule records the holder of each mutex by address in a table it never grows: open addressing
with linear probing over 1024 slots, where address 0 marks a free one and one slot always stays
free.

* **The table is a map** (`Refines`): of at most 1023 addresses, where recording a new one while it
  is full is ignored.
* **Every loop ends.** A probe and the moves back after a removal both stop at the slot kept free,
  so `find` and `remove` always have a result (`owners_refine`).
-/

namespace Snare.Sched

open Function

/-- `MutexOwners`: each slot's address and owner. -/
structure MutexOwners where
  slots : Fin 1024 → Nat × Nat
  len : Nat

namespace MutexOwners

def new : MutexOwners := ⟨fun _ => (0, 0), 0⟩

variable (addr : Nat)

/-- The slot a probe for an address starts at: the top ten bits of its hash, a `u64`. -/
def home : Fin 1024 :=
  ⟨((addr >>> 3) * 0x9e3779b97f4a7c15 % 2 ^ 64) >>> 54, by
    rw [Nat.shiftRight_eq_div_pow]
    exact Nat.div_lt_of_lt_mul (show _ % 2 ^ 64 < 2 ^ 54 * 1024 from Nat.mod_lt _ (by decide))⟩

variable (t : MutexOwners)

def find : Option (Fin 1024) :=
  Probing.probe 0 t.slots addr 1024 (home addr)

def insert (addr owner : Nat) : MutexOwners :=
  match t.find addr with
  | none => t
  | some i =>
    if (t.slots i).1 = 0 then
      if t.len + 1 ≥ 1024 then t
      else ⟨update t.slots i (addr, owner), t.len + 1⟩
    else ⟨update t.slots i (addr, owner), t.len⟩

def contains : Bool :=
  (t.find addr).any fun i => (t.slots i).1 = addr

def owner : Option Nat := do
  let i ← t.find addr
  if (t.slots i).1 = addr then some (t.slots i).2 else none

/-- Frees `addr`'s slot, moving back each later entry of its probe run that may fill it. `none` is a
loop that does not end within a turn. -/
def remove : Option MutexOwners :=
  match (t.find addr).filter fun i => (t.slots i).1 = addr with
  | none => some t
  | some hole => do
    let (slots, hole) ← Probing.shift 0 home t.slots hole 1024 hole
    some ⟨update slots hole (0, 0), t.len - 1⟩

end MutexOwners

/-- A `MutexRecord`: a mutex taken by a lineage, or let go. -/
structure MutexRecord where
  mutex : Nat
  lineage : Nat
  taken : Bool

def MutexOwners.apply (t : MutexOwners) (record : MutexRecord) : Option MutexOwners :=
  if record.taken then some (t.insert record.mutex record.lineage) else t.remove record.mutex

/-! ## The map the table is for -/

structure OwnerMap where
  keys : Finset Nat
  owner : Nat → Nat

namespace OwnerMap

def empty : OwnerMap := ⟨∅, fun _ => 0⟩

def insert (m : OwnerMap) (addr owner : Nat) : OwnerMap :=
  if addr ∈ m.keys ∨ m.keys.card < 1023 then
    ⟨Insert.insert addr m.keys, update m.owner addr owner⟩
  else m

def remove (m : OwnerMap) (addr : Nat) : OwnerMap := ⟨m.keys.erase addr, m.owner⟩

def apply (m : OwnerMap) (record : MutexRecord) : OwnerMap :=
  if record.taken then m.insert record.mutex record.lineage else m.remove record.mutex

end OwnerMap

/-! ## The table refines the map -/

structure Refines (t : MutexOwners) (m : OwnerMap) : Prop where
  table : Probing.Table 0 MutexOwners.home t.slots
  slot_iff : ∀ a, a ≠ 0 → ∀ o, (∃ i, t.slots i = (a, o)) ↔ a ∈ m.keys ∧ m.owner a = o
  zero : 0 ∉ m.keys
  len : t.len = m.keys.card
  card : m.keys.card ≤ 1023

namespace Refines

variable {t : MutexOwners} {m : OwnerMap}

theorem initial : Refines MutexOwners.new OwnerMap.empty where
  table := ⟨fun _ h => absurd rfl h, fun _ _ h => absurd rfl h⟩
  slot_iff a ha o := by simp [MutexOwners.new, OwnerMap.empty, ha.symm]
  zero := Finset.notMem_empty 0
  len := rfl
  card := Nat.zero_le _

section

variable (h : Refines t m)
include h

theorem exists_free : ∃ q, (t.slots q).1 = 0 := by
  by_contra hfull
  rw [not_exists] at hfull
  have hle : (Finset.univ : Finset (Fin 1024)).card ≤ m.keys.card :=
    Finset.card_le_card_of_injOn (fun i => (t.slots i).1)
      (fun i _ => ((h.slot_iff _ (hfull i) (t.slots i).2).1 ⟨i, rfl⟩).1)
      (fun i _ j _ hij => h.table.distinct i j (hfull i) hij)
  rw [Finset.card_univ, Fintype.card_fin] at hle
  have := h.card
  omega

theorem find_eq {a : Nat} (ha : a ≠ 0) :
    ∃ i, t.find a = some i ∧ Probing.Probed 0 MutexOwners.home t.slots a i ∧
      (a ∈ m.keys ∧ t.slots i = (a, m.owner a) ∨ a ∉ m.keys ∧ (t.slots i).1 = 0) := by
  obtain ⟨q, hq⟩ := h.exists_free
  obtain ⟨i, hfind, hprobed⟩ := Probing.exists_probed (a := a) MutexOwners.home hq
  refine ⟨i, hfind, hprobed, ?_⟩
  rcases hprobed.1 with hkey | hfree
  · obtain ⟨hmem, howner⟩ := (h.slot_iff a ha (t.slots i).2).1 ⟨i, Prod.ext hkey rfl⟩
    exact .inl ⟨hmem, Prod.ext hkey howner.symm⟩
  · refine .inr ⟨fun hmem => ?_, hfree⟩
    obtain ⟨j, hj⟩ := (h.slot_iff a ha (m.owner a)).2 ⟨hmem, rfl⟩
    exact h.table.absent hprobed ha hfree j (congrArg Prod.fst hj)

theorem slot_iff_update {a : Nat} {o : Nat} {i : Fin 1024} (ha : a ≠ 0)
    (hi : (t.slots i).1 = a ∨ (t.slots i).1 = 0)
    (htable : Probing.Table 0 MutexOwners.home (update t.slots i (a, o))) (b : Nat)
    (hb : b ≠ 0) (p : Nat) : (∃ j, update t.slots i (a, o) j = (b, p)) ↔
      b ∈ Insert.insert a m.keys ∧ update m.owner a o b = p := by
  have hat : update t.slots i (a, o) i = (a, o) := update_self i _ _
  by_cases hba : b = a
  · subst hba
    rw [update_self]
    refine ⟨fun ⟨j, hj⟩ => ⟨Finset.mem_insert_self _ _, ?_⟩, fun ⟨_, ho⟩ => ⟨i, by rw [hat, ho]⟩⟩
    -- an address has one slot
    obtain rfl := htable.distinct i j (by rw [hat]; exact hb) (by rw [hat, hj])
    exact congrArg Prod.snd (hat.symm.trans hj)
  · rw [update_of_ne hba, Finset.mem_insert, or_iff_right hba, ← h.slot_iff b hb p]
    constructor
    · rintro ⟨j, hj⟩
      by_cases hji : j = i
      · rw [hji, hat] at hj
        exact absurd (congrArg Prod.fst hj).symm hba
      · exact ⟨j, by rwa [update_of_ne hji] at hj⟩
    · rintro ⟨j, hj⟩
      have hji : j ≠ i := by
        rintro rfl
        rw [hj] at hi
        exact hi.elim hba hb
      exact ⟨j, by rwa [update_of_ne hji]⟩

theorem insert {a : Nat} (ha : a ≠ 0) (o : Nat) : Refines (t.insert a o) (m.insert a o) := by
  obtain ⟨i, hfind, hprobed, hslot⟩ := h.find_eq ha
  have hzero : 0 ∉ Insert.insert a m.keys := by
    rw [Finset.mem_insert, not_or]
    exact ⟨ha.symm, h.zero⟩
  unfold MutexOwners.insert OwnerMap.insert
  rw [hfind]
  dsimp only
  rcases hslot with ⟨hmem, hslot⟩ | ⟨hmem, hfree⟩
  · have hkey : (t.slots i).1 = a := congrArg Prod.fst hslot
    have htable := h.table.set hkey o
    rw [if_neg (by rw [hkey]; exact ha), if_pos (.inl hmem)]
    refine ⟨htable, h.slot_iff_update ha (.inl hkey) htable, hzero, ?_, ?_⟩
    · rw [Finset.insert_eq_self.2 hmem]
      exact h.len
    · rw [Finset.insert_eq_self.2 hmem]
      exact h.card
  · rw [if_pos hfree]
    have hlen := h.len
    by_cases hfull : t.len + 1 ≥ 1024
    · rw [if_pos hfull, if_neg (by rw [not_or]; exact ⟨hmem, by omega⟩)]
      exact h
    · have htable := h.table.put hprobed ha hfree o
      rw [if_neg hfull, if_pos (.inr (by omega))]
      refine ⟨htable, h.slot_iff_update ha (.inr hfree) htable, hzero, ?_, ?_⟩ <;>
        rw [Finset.card_insert_of_notMem hmem]
      · exact congrArg (· + 1) hlen
      · omega

theorem remove {a : Nat} (ha : a ≠ 0) : ∃ t', t.remove a = some t' ∧ Refines t' (m.remove a) := by
  obtain ⟨i, hfind, -, hslot⟩ := h.find_eq ha
  unfold MutexOwners.remove OwnerMap.remove
  rw [hfind, Option.filter_some]
  rcases hslot with ⟨hmem, hslot⟩ | ⟨hmem, hfree⟩
  · have hkey : (t.slots i).1 = a := congrArg Prod.fst hslot
    have hocc : (t.slots i).1 ≠ 0 := by rw [hkey]; exact ha
    obtain ⟨q, hq⟩ := h.exists_free
    obtain ⟨slots, hole, j, hshift, hshifting, htable⟩ := Probing.shift_spec hq
      (h.table.shifting hocc) (show Probing.dist i q ≤ 1024 from (Probing.dist_lt i q).le)
    rw [if_pos (decide_eq_true hkey)]
    dsimp only
    rw [hshift]
    refine ⟨⟨update slots hole (0, 0), t.len - 1⟩, rfl, htable 0, fun b hb p => ?_,
      fun hz => h.zero (Finset.mem_of_mem_erase hz), ?_, ?_⟩
    · rw [hshifting.entries_update 0 hb, Finset.mem_erase, and_assoc, ← h.slot_iff b hb p]
      -- an address has one slot, so the other slots are those of other addresses
      constructor
      · rintro ⟨k, hki, hk⟩
        refine ⟨?_, k, hk⟩
        rintro rfl
        exact hki (h.table.distinct i k hocc (by rw [hkey, hk])).symm
      · rintro ⟨hba, k, hk⟩
        refine ⟨k, ?_, hk⟩
        rintro rfl
        exact hba ((congrArg Prod.fst hk).symm.trans hkey)
    · rw [Finset.card_erase_of_mem hmem]
      exact congrArg (· - 1) h.len
    · exact (Finset.card_erase_le).trans h.card
  · rw [if_neg (by simp [hfree, ha.symm])]
    refine ⟨t, rfl, ?_⟩
    rw [Finset.erase_eq_of_notMem hmem]
    exact h

theorem apply {record : MutexRecord} (hrecord : record.mutex ≠ 0) :
    ∃ t', t.apply record = some t' ∧ Refines t' (m.apply record) := by
  unfold MutexOwners.apply OwnerMap.apply
  split
  · exact ⟨_, rfl, h.insert hrecord record.lineage⟩
  · exact h.remove hrecord

theorem run (records : List MutexRecord) (hrecords : ∀ record ∈ records, record.mutex ≠ 0) :
    ∃ t', records.foldlM MutexOwners.apply t = some t' ∧
      Refines t' (records.foldl OwnerMap.apply m) := by
  induction records generalizing t m with
  | nil => exact ⟨t, rfl, h⟩
  | cons record rest ih =>
    obtain ⟨t', happly, h'⟩ := h.apply (hrecords record List.mem_cons_self)
    rw [List.foldlM_cons, happly]
    exact ih h' fun r hr => hrecords r (List.mem_cons_of_mem record hr)

end

end Refines

/-- **The owner table is a map of at most 1023 addresses.** However mutexes are taken and let go,
every loop ends and the table answers as the map does: a probe finds the address's slot if the map
has it, and a free slot if not. -/
theorem owners_refine (records : List MutexRecord)
    (hrecords : ∀ record ∈ records, record.mutex ≠ 0) :
    ∃ t, records.foldlM MutexOwners.apply MutexOwners.new = some t ∧
      let m := records.foldl OwnerMap.apply OwnerMap.empty
      t.len = m.keys.card ∧ m.keys.card ≤ 1023 ∧
      ∀ a, a ≠ 0 → (∃ i, t.find a = some i ∧
          (a ∈ m.keys ∧ t.slots i = (a, m.owner a) ∨ a ∉ m.keys ∧ (t.slots i).1 = 0)) ∧
        (t.contains a = true ↔ a ∈ m.keys) ∧
        ∀ o, t.owner a = some o ↔ a ∈ m.keys ∧ m.owner a = o := by
  obtain ⟨t, hrun, h⟩ := Refines.initial.run records hrecords
  refine ⟨t, hrun, h.len, h.card, fun a ha => ?_⟩
  obtain ⟨i, hfind, -, hslot⟩ := h.find_eq ha
  refine ⟨⟨i, hfind, hslot⟩, ?_, fun o => ?_⟩
  · unfold MutexOwners.contains
    rw [hfind]
    rcases hslot with ⟨hmem, hslot⟩ | ⟨hmem, hfree⟩
    · simp [hslot, hmem]
    · simp [hfree, hmem, ha.symm]
  · unfold MutexOwners.owner
    rw [hfind]
    rcases hslot with ⟨hmem, hslot⟩ | ⟨hmem, hfree⟩
    · simp [hslot, hmem]
    · simp [hfree, hmem, ha.symm]

/-- Two mutexes of one home, the first let go again: the second is still found. -/
theorem owners_refine_collision : MutexOwners.home 8 = MutexOwners.home 7904 ∧
      ∃ t, [⟨8, 1, true⟩, ⟨7904, 2, true⟩, ⟨8, 1, false⟩].foldlM MutexOwners.apply
          MutexOwners.new = some t ∧ t.contains 8 = false ∧ t.owner 7904 = some 2 := by
  refine ⟨by decide, ?_⟩
  obtain ⟨t, hrun, -, -, hmap⟩ :=
    owners_refine [⟨8, 1, true⟩, ⟨7904, 2, true⟩, ⟨8, 1, false⟩] (by decide)
  refine ⟨t, hrun, ?_, ((hmap 7904 (by decide)).2.2 2).2 (by decide)⟩
  rw [← Bool.not_eq_true, (hmap 8 (by decide)).2.1]
  decide

end Snare.Sched
