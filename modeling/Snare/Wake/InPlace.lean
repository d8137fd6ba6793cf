import Snare.Lib.SwapRemove

/-!
# Lists that start in place

Two lists whose first entries are kept in place and the rest on the heap: `RoomVec`, the entries of
a hook that must not allocate, and `WakeKeys`, the keys a wait is to wake.

* **`RoomVec.contents_of_run`**: pushes and retains leave what was pushed and not rejected;
* **`WakeKeys.slice_of_run`**: the distinct keys since the last clear, in the order they came.
-/

namespace Snare.Wake

open Function List

/-! ## Room first, then a spill -/

structure RoomVec (T : Type*) where
  /-- The slots in place. -/
  room : Nat → Option T
  len : Nat
  spill : List T

inductive RoomVec.Op (T : Type*) where
  | push (value : T)
  | retain (keep : T → Bool)

namespace RoomVec

variable {T : Type*}

def new : RoomVec T := ⟨fun _ => none, 0, []⟩

def length (v : RoomVec T) : Nat := v.len + v.spill.length

def iter (v : RoomVec T) : List T := (range v.len).filterMap v.room ++ v.spill

def push (N : Nat) (v : RoomVec T) (value : T) : RoomVec T :=
  if v.len < N then { v with room := update v.room v.len (some value), len := v.len + 1 }
  else { v with spill := v.spill ++ [value] }

/-- The first loop of `retain`, with `left` entries from `i` on still to be looked at; the slots and
the length after it. -/
def retainRoom (keep : T → Bool) (room : Nat → Option T) (i : Nat) : Nat → (Nat → Option T) × Nat
  | 0 => (room, i)
  | left + 1 =>
    if (room i).any keep then retainRoom keep room (i + 1) left
    else retainRoom keep (update (update room i (room (i + left))) (i + left) none) i left

/-- The last loop of `retain`, with `free` slots left. -/
def refill : Nat → RoomVec T → RoomVec T
  | 0, v => v
  | free + 1, v =>
    match v.spill.getLast? with
    | none => v
    | some value =>
      refill free ⟨update v.room v.len (some value), v.len + 1, v.spill.dropLast⟩

def retain (N : Nat) (v : RoomVec T) (keep : T → Bool) : RoomVec T :=
  let (room, len) := retainRoom keep v.room 0 v.len
  refill (N - len) ⟨room, len, v.spill.filter keep⟩

def Op.apply (N : Nat) (v : RoomVec T) : Op T → RoomVec T
  | .push value => v.push N value
  | .retain keep => v.retain N keep

/-- What was pushed and not rejected, in the order it came. -/
def kept (l : List T) : Op T → List T
  | .push value => l ++ [value]
  | .retain keep => l.filter keep

variable {N : Nat} {l : List T}

/-- The slots that hold `l` and then nothing. -/
def slots (l : List T) (j : Nat) : Option T := l[j]?

theorem update_slots (l : List T) (value : T) :
    update (slots l) l.length (some value) = slots (l ++ [value]) := by
  funext j
  rw [update_apply, slots, slots, getElem?_append]
  rcases Nat.lt_trichotomy j l.length with hj | rfl | hj
  · rw [if_neg hj.ne, if_pos hj]
  · simp
  · rw [if_neg hj.ne', if_neg hj.not_gt, getElem?_eq_none hj.le, getElem?_eq_none (by simp; omega)]

theorem slots_swapRemove {i : Nat} (hi : i < l.length) :
    update (update (slots l) i (slots l (l.length - 1))) (l.length - 1) none =
      slots (swapRemove l i) := by
  funext j
  simp only [slots, getElem?_swapRemove hi, update_apply]
  split
  · rw [if_neg (by omega)]
  · split
    · rw [if_pos (by omega)]
    · split
      · rfl
      · exact getElem?_eq_none (by omega)

theorem retainRoom_spec (keep : T → Bool) (left i : Nat) (l : List T) (hlen : l.length = i + left)
    (hkeep : ∀ x ∈ l.take i, keep x) : ∃ filled : List T, filled.Perm (l.filter keep) ∧
      retainRoom keep (slots l) i left = (slots filled, filled.length) := by
  induction left generalizing i l with
  | zero =>
    rw [take_of_length_le (by omega)] at hkeep
    exact ⟨l, by rw [filter_eq_self.mpr hkeep], by rw [retainRoom, hlen]; rfl⟩
  | succ left ih =>
    have hi : i < l.length := by omega
    have hslot : slots l i = some l[i] := getElem?_eq_getElem hi
    rw [retainRoom, hslot]
    by_cases hx : keep l[i]
    · rw [if_pos (by simpa using hx)]
      refine ih (i + 1) l (by omega) fun x hmem => ?_
      rw [take_succ_eq_append_getElem hi, mem_append, mem_singleton] at hmem
      rcases hmem with hmem | rfl
      · exact hkeep x hmem
      · exact hx
    · -- the last entry takes the place of the rejected one and is looked at next
      have hperm := swapRemove_perm (getElem?_eq_getElem hi)
      have hlen' : (swapRemove l i).length = i + left := by
        have := hperm.length_eq
        rw [length_cons] at this
        omega
      have htake : (swapRemove l i).take i = l.take i := by
        refine ext_getElem? fun j => ?_
        simp only [getElem?_take]
        split
        · rw [getElem?_swapRemove hi, if_pos (by omega), if_neg (by omega)]
        · rfl
      obtain ⟨filled, hfilled, heq⟩ := ih i (swapRemove l i) hlen' (by rwa [htake])
      refine ⟨filled, hfilled.trans ?_, ?_⟩
      · simpa [hx] using (hperm.filter keep).symm
      · rw [if_neg (by simpa using hx), ← heq, ← slots_swapRemove hi,
          show l.length - 1 = i + left by omega]

/-- The list holds `l`, with a spill only when there is no room left. -/
def Stands (N : Nat) (v : RoomVec T) (l : List T) : Prop :=
  ∃ filled, v.room = slots filled ∧ v.len = filled.length ∧ filled.length ≤ N ∧
    (filled ++ v.spill).Perm l ∧ (v.spill ≠ [] → filled.length = N)

theorem refill_stands (filled spill : List T) (hle : filled.length ≤ N) :
    Stands N (refill (N - filled.length) ⟨slots filled, filled.length, spill⟩)
      (filled ++ spill) := by
  induction hfree : N - filled.length generalizing filled spill with
  | zero => exact ⟨filled, rfl, rfl, hle, .refl _, fun _ => by omega⟩
  | succ free ih =>
    rcases eq_nil_or_concat' spill with rfl | ⟨init, value, rfl⟩
    · exact ⟨filled, rfl, rfl, hle, .refl _, fun hne => absurd rfl hne⟩
    · have hnext := ih (filled ++ [value]) init (by simp; omega) (by simp; omega)
      rw [length_append, length_singleton] at hnext
      simp only [refill, getLast?_concat, dropLast_concat, update_slots]
      obtain ⟨filled', hroom, hlen, hle', hperm, hfull⟩ := hnext
      refine ⟨filled', hroom, hlen, hle', hperm.trans ?_, hfull⟩
      rw [append_assoc]
      exact perm_append_comm.append_left filled

theorem Stands.apply {v : RoomVec T} (h : Stands N v l) (op : Op T) :
    Stands N (op.apply N v) (kept l op) := by
  obtain ⟨filled, hroom, hlen, hle, hperm, hfull⟩ := h
  cases op with
  | push value =>
    have hadd : (filled ++ v.spill ++ [value]).Perm (l ++ [value]) := hperm.append_right _
    rw [append_assoc] at hadd
    rw [Op.apply, push]
    split
    · refine ⟨filled ++ [value], ?_, by simp [hlen], by simp; omega, .trans ?_ hadd, fun hne => ?_⟩
      · rw [← update_slots, hroom, hlen]
      · rw [append_assoc]
        exact perm_append_comm.append_left filled
      · have := hfull hne
        omega
    · exact ⟨filled, hroom, hlen, hle, hadd, fun _ => by omega⟩
  | retain keep =>
    obtain ⟨next, hnext, heq⟩ := retainRoom_spec keep v.len 0 filled (by omega) (by simp)
    have hle' : next.length ≤ N := hnext.length_eq.trans_le ((length_filter_le _ _).trans hle)
    rw [Op.apply, retain, hroom, heq]
    obtain ⟨filled', hroom', hlen', hle', hperm', hfull'⟩ :=
      refill_stands next (v.spill.filter keep) hle'
    refine ⟨filled', hroom', hlen', hle', hperm'.trans ?_, hfull'⟩
    have hboth := hperm.filter keep
    rw [filter_append] at hboth
    exact (hnext.append_right _).trans hboth

theorem filterMap_slots (l : List T) : (range l.length).filterMap (slots l) = l := by
  have hmap : (range l.length).map (slots l) = l.map some := by
    refine ext_getElem? fun j => ?_
    by_cases hj : j < l.length <;> simp [slots, hj]
  simpa [filterMap_map] using congrArg (filterMap id) hmap

/-- **The contents of a run** are the pushed entries that no later retain rejected, each once. There
is a spill only when the room is full, and the length is their number. -/
theorem contents_of_run (N : Nat) (ops : List (Op T)) :
    let v := ops.foldl (Op.apply N) new
    v.iter.Perm (ops.foldl kept []) ∧ (v.spill ≠ [] → v.len = N) ∧ v.length = v.iter.length := by
  have hnew : Stands N (new : RoomVec T) [] :=
    ⟨[], rfl, rfl, Nat.zero_le N, .refl _, fun hne => absurd rfl hne⟩
  have hrun : Stands N (ops.foldl (Op.apply N) new) (ops.foldl kept []) :=
    foldl_rel hnew fun op _ v l h => h.apply op
  generalize ops.foldl (Op.apply N) new = v at hrun
  obtain ⟨filled, hroom, hlen, -, hperm, hfull⟩ := hrun
  have hiter : v.iter = filled ++ v.spill := by rw [iter, hroom, hlen, filterMap_slots]
  refine ⟨hiter ▸ hperm, fun hne => hlen.trans (hfull hne), ?_⟩
  rw [hiter, length, hlen, length_append]

end RoomVec

/-! ## Keys in place, then a list, then an index -/

structure WakeKeys (K : Type*) where
  inline : List K
  len : Nat
  overflow : List K
  indexed : Option (Finset K)

inductive WakeKeys.Op (K : Type*) where
  | push (key : K)
  | clear

namespace WakeKeys

variable {K : Type*} [DecidableEq K]

def empty (unused : K) : WakeKeys K := ⟨replicate 8 unused, 0, [], none⟩

def asSlice (w : WakeKeys K) : List K :=
  if w.overflow.isEmpty then w.inline.take w.len else w.overflow

def clear (w : WakeKeys K) : WakeKeys K :=
  { w with len := 0, overflow := [], indexed := w.indexed.map fun _ => ∅ }

def add (w : WakeKeys K) (key : K) : WakeKeys K :=
  if w.len < w.inline.length then { w with inline := w.inline.set w.len key, len := w.len + 1 }
  else
    let overflow := if w.overflow.isEmpty then w.inline else w.overflow
    { w with overflow := overflow ++ [key], len := w.len + 1 }

/-- The index as `push` looks a key up in it: made from the list when it is first needed. -/
def index (w : WakeKeys K) : Option (Finset K) :=
  if w.len = 64 ∧ w.indexed.getD ∅ = ∅ then some w.overflow.toFinset else w.indexed

/-- `none` is the panic without an index. -/
def push (w : WakeKeys K) (key : K) : Option (WakeKeys K) :=
  if w.len < 64 then some (if key ∈ w.asSlice then w else w.add key)
  else do
    let indexed ← w.index
    let w := { w with indexed := some (insert key indexed) }
    return if key ∈ indexed then w else w.add key

def Op.apply (w : WakeKeys K) : Op K → Option (WakeKeys K)
  | .push key => w.push key
  | .clear => some w.clear

def pushed (l : List K) : Op K → List K
  | .push key => l ++ [key]
  | .clear => []

/-- The index is there for more than 64 keys, and for 64 it may be. -/
def Indexes (indexed : Option (Finset K)) (l : List K) : Prop :=
  indexed.getD ∅ = ∅ ∧ l.length ≤ 64 ∨ indexed = some l.toFinset ∧ 64 ≤ l.length

structure Stands (w : WakeKeys K) (l : List K) : Prop where
  inline : w.inline.length = 8
  len : w.len = l.length
  few : l.length ≤ 8 → w.overflow = [] ∧ w.inline.take w.len = l
  many : 8 < l.length → w.overflow = l
  indexed : Indexes w.indexed l

variable {w : WakeKeys K} {l : List K}

theorem Stands.asSlice_eq (h : Stands w l) : w.asSlice = l := by
  rw [asSlice]
  rcases Nat.lt_or_ge 8 l.length with hl | hl
  · rw [h.many hl, if_neg (by simpa using ne_nil_of_length_pos (by omega))]
  · simp [h.few hl]

theorem Stands.add (h : Stands w l) (key : K) {indexed : Option (Finset K)}
    (hindexed : Indexes indexed (l ++ [key])) :
    Stands ({ w with indexed }.add key) (l ++ [key]) := by
  have hlen := h.len
  have hinline := h.inline
  rw [WakeKeys.add]
  split
  · next hlt =>
    simp only at hlt
    obtain ⟨hover, htake⟩ := h.few (by omega)
    refine ⟨by simpa, by simp [hlen], fun _ => ⟨hover, ?_⟩,
      fun hl => by simp at hl; omega, hindexed⟩
    rw [take_succ_eq_append_getElem (by simpa), take_set_of_le le_rfl, htake, getElem_set_self]
  · next hge =>
    simp only at hge
    refine ⟨hinline, by simp [hlen], fun hl => by simp at hl; omega, fun _ => ?_, hindexed⟩
    rcases Nat.lt_or_ge 8 l.length with hl | hl
    · simp [h.many hl, ne_nil_of_length_pos (by omega : 0 < l.length)]
    · obtain ⟨hover, htake⟩ := h.few hl
      simp [hover, ← htake, take_of_length_le (by omega : w.inline.length ≤ w.len)]

theorem Stands.push (h : Stands w l) (key : K) :
    ∃ w', w.push key = some w' ∧ Stands w' (if key ∈ l then l else l ++ [key]) := by
  have hlen := h.len
  rw [WakeKeys.push]
  split
  · next hlt =>
    have hempty : w.indexed.getD ∅ = ∅ := by
      rcases h.indexed with ⟨hempty, -⟩ | ⟨-, hl⟩
      · exact hempty
      · omega
    rw [h.asSlice_eq]
    refine ⟨_, rfl, ?_⟩
    split
    · exact h
    · exact h.add key (.inl ⟨hempty, by simp; omega⟩)
  · next hge =>
    have hindex : w.index = some l.toFinset := by
      rw [index, h.many (by omega)]
      rcases h.indexed with ⟨hempty, hl⟩ | ⟨hsome, hl⟩
      · rw [if_pos ⟨by omega, hempty⟩]
      · rw [hsome, ite_self]
    rw [hindex]
    refine ⟨_, rfl, ?_⟩
    simp only [mem_toFinset]
    split
    · next hmem =>
      rw [Finset.insert_eq_of_mem (mem_toFinset.mpr hmem)]
      exact { h with indexed := .inr ⟨rfl, by omega⟩ }
    · exact h.add key (.inr ⟨by simp [toFinset_append], by simp; omega⟩)

theorem Stands.apply (h : Stands w l.eraseDups) (op : Op K) :
    ∃ w', op.apply w = some w' ∧ Stands w' (pushed l op).eraseDups := by
  cases op with
  | push key =>
    obtain ⟨w', hw, h'⟩ := h.push key
    refine ⟨w', hw, ?_⟩
    rw [pushed, eraseDups_append]
    by_cases hmem : key ∈ l <;> simpa [hmem, removeAll, eraseDups_cons] using h'
  | clear =>
    refine ⟨_, rfl, h.inline, rfl, fun _ => ⟨rfl, rfl⟩, fun hl => by simp [pushed] at hl,
      .inl ⟨?_, by simp [pushed]⟩⟩
    cases hw : w.indexed <;> simp [WakeKeys.clear, hw]

/-- **The keys of a run** are the distinct ones pushed since the last clear, in the order in which
they were first pushed; and no push panics. -/
theorem slice_of_run (unused : K) (ops : List (Op K)) :
    ∃ w, ops.foldlM Op.apply (empty unused) = some w ∧
      w.asSlice = (ops.foldl pushed []).eraseDups := by
  suffices ∃ w, ops.foldlM Op.apply (empty unused) = some w ∧
      Stands w (ops.foldl pushed []).eraseDups by
    obtain ⟨w, hw, h⟩ := this
    exact ⟨w, hw, h.asSlice_eq⟩
  induction ops using reverseRecOn with
  | nil =>
    exact ⟨_, rfl, by simp [empty], rfl, fun _ => ⟨rfl, rfl⟩, by simp, .inl ⟨rfl, by simp⟩⟩
  | append_singleton ops op ih =>
    obtain ⟨w, hw, h⟩ := ih
    obtain ⟨w', hw', h'⟩ := h.apply op
    exact ⟨w', by simp [foldlM_append, hw, hw'], by simpa using h'⟩

end WakeKeys

end Snare.Wake
