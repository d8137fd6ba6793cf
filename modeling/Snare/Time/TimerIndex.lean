import Snare.Time.Timers

/-!
# The cross index of a timer table stays exact

`Timers.look` reads the table from the entries' side: the id at a place of the entry at an instant.
The invariant `Exact` says that `wake_deadlines` is its inverse and that no entry is empty, so what
`cancel_wake` takes for granted (the entry, the element at the index) is always there.

Beside it, `pendingIds` lists the wakers a table holds undelivered. What an operation does to that
list, up to order, is what it registers, hands out or cancels: the lemmas `pendingIds_*` are the
table's side of the ledger that `Snare.Time.Ledger` keeps over runs.
-/

namespace Snare.Time

open List SortedMap

def Entry.slot? (e : Entry) : WakeSlot → Option Nat
  | .pending i => e.wakers[i]?.map Prod.fst
  | .held i => e.awaiting[i]?

def Timers.look (t : Timers) (at_ : Nat) (slot : WakeSlot) : Option Nat :=
  (t.entries.get? at_).bind (·.slot? slot)

/-- The index maps an id to an instant and a place exactly when the entry there holds the id at that
place. -/
def Timers.Indexed (t : Timers) : Prop :=
  ∀ id at_ slot, t.wakeDeadlines.get? id = some (at_, slot) ↔ t.look at_ slot = some id

/-- **The table invariant**: the index is exact and no entry is empty. -/
structure Timers.Exact (t : Timers) : Prop where
  indexed : t.Indexed
  nonempty : ∀ at_ e, t.entries.get? at_ = some e → e.isEmpty = false

theorem Timers.exact_default : Timers.Exact {} where
  indexed := fun _ _ _ => by simp [look]
  nonempty := fun _ _ h => by simp at h

/-! ## Changing one entry -/

variable {e : Entry}

theorem Entry.isEmpty_iff :
    e.isEmpty = true ↔ e.waits = 0 ∧ e.events = 0 ∧ e.wakers = [] ∧ e.awaiting = [] := by
  simp [isEmpty, and_assoc]

theorem look_insert (t : Timers) (index : SortedMap Nat (Nat × WakeSlot)) (at_ at' : Nat)
    (e : Entry) (slot : WakeSlot) :
    Timers.look ⟨t.entries.insert at_ e, index⟩ at' slot =
      if at' = at_ then e.slot? slot else t.look at' slot := by
  simp only [Timers.look, get?_insert]
  split <;> rfl

theorem look_dropEmpty (t : Timers) (at_ : Nat) : (t.dropEmpty at_).look = t.look := by
  funext at' slot
  simp only [Timers.look, Timers.dropEmpty, get?_alter]
  split
  · next h =>
    subst h
    cases he : t.entries.get? at' with
    | none => rfl
    | some e =>
      by_cases hempty : e.isEmpty = true
      · obtain ⟨-, -, hw, ha⟩ := Entry.isEmpty_iff.mp hempty
        cases slot <;> simp [Option.filter, hempty, Entry.slot?, hw, ha]
      · simp [Option.filter, hempty]
  · rfl

variable {t t' : Timers}

theorem Timers.Indexed.dropEmpty (h : t.Indexed) (at_ : Nat) : (t.dropEmpty at_).Indexed := by
  intro id at' slot
  rw [look_dropEmpty]
  exact h id at' slot

variable {at_ id upto : Nat}

theorem nonempty_dropEmpty
    (h : ∀ at' e, at' ≠ at_ → t.entries.get? at' = some e → e.isEmpty = false) :
    ∀ at' e, (t.dropEmpty at_).entries.get? at' = some e → e.isEmpty = false := by
  intro at' e he
  simp only [Timers.dropEmpty, get?_alter] at he
  split at he
  · simpa using (Option.filter_eq_some_iff.mp he).2
  · next hne => exact h at' e hne he

theorem Timers.Exact.insert_dropEmpty (h : t.Exact) {index : SortedMap Nat (Nat × WakeSlot)}
    (hindexed : Timers.Indexed ⟨t.entries.insert at_ e, index⟩) :
    Timers.Exact (Timers.dropEmpty ⟨t.entries.insert at_ e, index⟩ at_) where
  indexed := hindexed.dropEmpty at_
  nonempty := nonempty_dropEmpty fun at' e' hne he' => by
    rw [get?_insert, if_neg hne] at he'
    exact h.nonempty at' e' he'

theorem Timers.Indexed.insert_same (h : t.Indexed)
    (hsame : ∀ slot, e.slot? slot = t.look at_ slot) :
    Timers.Indexed { t with entries := t.entries.insert at_ e } := by
  intro id at' slot
  rw [h id at' slot, look_insert]
  split
  · next heq => rw [heq, hsame]
  · rfl

/-! ## The ids of one entry are distinct -/

theorem Timers.Indexed.wakers_nodup (h : t.Indexed)
    (he : t.entries.get? at_ = some e) : (e.wakers.map Prod.fst).Nodup := by
  rw [nodup_iff_getElem?_ne_getElem?]
  intro i j hij hj heq
  obtain ⟨id, hid⟩ : ∃ id, (e.wakers.map Prod.fst)[j]? = some id :=
    ⟨_, List.getElem?_eq_getElem hj⟩
  have hlook : ∀ k, (e.wakers.map Prod.fst)[k]? = some id →
      t.wakeDeadlines.get? id = some (at_, .pending k) := by
    intro k hk
    rw [h id at_ (.pending k)]
    simpa [look, he, Entry.slot?] using hk
  have hi := hlook i (heq.trans hid)
  have hj := hlook j hid
  rw [hi] at hj
  simp only [Option.some.injEq, Prod.mk.injEq, WakeSlot.pending.injEq, true_and] at hj
  omega

/-! ## The undelivered wakers -/

def undelivered (e : Option Entry) : List Nat := e.elim [] fun e => e.wakers.map Prod.fst

def Timers.pendingIds (t : Timers) : List Nat :=
  t.entries.entries.flatMap fun e => e.2.wakers.map Prod.fst

theorem pendingIds_alter (t : Timers) (at_ : Nat) (f : Option Entry → Option Entry)
    (index : SortedMap Nat (Nat × WakeSlot)) :
    ∃ rest, t.pendingIds.Perm (undelivered (t.entries.get? at_) ++ rest) ∧
      (Timers.pendingIds ⟨t.entries.alter at_ f, index⟩).Perm
        (undelivered (f (t.entries.get? at_)) ++ rest) := by
  have hself : ∀ o : Option Entry,
      (o.toList.map (at_, ·)).flatMap (fun e => e.2.wakers.map Prod.fst) = undelivered o := by
    rintro (_ | e) <;> simp [undelivered]
  refine ⟨(t.entries.others at_).flatMap fun e => e.2.wakers.map Prod.fst, ?_, ?_⟩
  · have := (t.entries.entries_perm at_).flatMap_right fun e => e.2.wakers.map Prod.fst
    rwa [flatMap_append, hself] at this
  · have := (t.entries.alter_perm at_ f).flatMap_right fun e => e.2.wakers.map Prod.fst
    rwa [flatMap_append, hself] at this

theorem pendingIds_alter_same (t : Timers) (at_ : Nat) {f : Option Entry → Option Entry}
    (index : SortedMap Nat (Nat × WakeSlot))
    (hsame : undelivered (f (t.entries.get? at_)) = undelivered (t.entries.get? at_)) :
    (Timers.pendingIds ⟨t.entries.alter at_ f, index⟩).Perm t.pendingIds := by
  obtain ⟨rest, h₁, h₂⟩ := pendingIds_alter t at_ f index
  rw [hsame] at h₂
  exact h₂.trans h₁.symm

theorem pendingIds_dropEmpty (t : Timers) (at_ : Nat) :
    (t.dropEmpty at_).pendingIds.Perm t.pendingIds := by
  refine pendingIds_alter_same t at_ _ ?_
  cases he : t.entries.get? at_ with
  | none => rfl
  | some e =>
    by_cases hempty : e.isEmpty = true
    · simp [Option.filter, hempty, undelivered, (Entry.isEmpty_iff.mp hempty).2.2.1]
    · simp [Option.filter, hempty]

/-! ## Registering -/

theorem look_eq_getD (t : Timers) (at_ : Nat) (slot : WakeSlot) :
    t.look at_ slot = ((t.entries.get? at_).getD {}).slot? slot := by
  unfold Timers.look
  cases t.entries.get? at_ with
  | none => cases slot <;> rfl
  | some e => rfl

theorem look_modify (t : Timers) (index : SortedMap Nat (Nat × WakeSlot)) (at_ at' : Nat)
    (f : Entry → Entry) (slot : WakeSlot) :
    Timers.look ⟨(t.modify at_ f).entries, index⟩ at' slot =
      if at' = at_ then (f ((t.entries.get? at_).getD {})).slot? slot else t.look at' slot := by
  simp only [Timers.look, Timers.modify, get?_alter]
  split <;> rfl

@[simp] theorem modify_wakeDeadlines (t : Timers) (at_ : Nat) (f : Entry → Entry) :
    (t.modify at_ f).wakeDeadlines = t.wakeDeadlines := rfl

theorem nonempty_modify (h : t.Exact) (at_ : Nat) {f : Entry → Entry}
    (hf : ∀ e, (f e).isEmpty = false) :
    ∀ at' e, (t.modify at_ f).entries.get? at' = some e → e.isEmpty = false := by
  intro at' e he
  simp only [Timers.modify, get?_alter] at he
  split at he
  · cases he
    exact hf _
  · exact h.nonempty at' e he

theorem Timers.Exact.registerWake (h : t.Exact) (at_ : Nat)
    (owner : Option Nat) (hfresh : t.wakeDeadlines.get? id = none) :
    (t.registerWake at_ id owner).Exact where
  indexed := by
    intro id' at' slot
    have hnew : ∀ at' slot, t.look at' slot ≠ some id := by
      intro at' slot hlook
      rw [← h.indexed, hfresh] at hlook
      cases hlook
    simp only [Timers.registerWake, look_modify, get?_insert, modify_wakeDeadlines]
    set e := (t.entries.get? at_).getD {} with he
    -- the only place whose id changes is the one behind the old wakers
    have hslot : Entry.slot? { e with wakers := e.wakers ++ [(id, owner)] } slot =
        if slot = .pending e.wakers.length then some id else t.look at_ slot := by
      rw [look_eq_getD, ← he]
      cases slot with
      | pending i =>
        rcases Nat.lt_trichotomy i e.wakers.length with hi | hi | hi
        · simp [Entry.slot?, List.getElem?_append_left hi, hi.ne]
        · simp [Entry.slot?, hi]
        · simp [Entry.slot?, List.getElem?_eq_none hi.le, hi.ne',
            List.getElem?_eq_none (show (e.wakers ++ [(id, owner)]).length ≤ i by simp; omega)]
      | held i => simp [Entry.slot?]
    rw [hslot]
    by_cases hid : id' = id
    · subst hid
      by_cases hat : at' = at_
      · by_cases hs : slot = .pending e.wakers.length
        · simp [hat, hs]
        · simp [hat, hs, hnew, Ne.symm hs]
      · simp [hat, hnew, Ne.symm hat]
    · rw [if_neg hid, h.indexed]
      by_cases hat : at' = at_
      · by_cases hs : slot = .pending e.wakers.length
        · have hnone : t.look at_ (.pending e.wakers.length) = none := by
            rw [look_eq_getD, ← he]
            simp [Entry.slot?]
          simp [hat, hs, hnone, Ne.symm hid]
        · simp [hat, hs]
      · simp [hat]
  nonempty := nonempty_modify (f := fun e => { e with wakers := e.wakers ++ [(id, owner)] }) h at_
    fun e => by
      rw [Bool.eq_false_iff, ne_eq, Entry.isEmpty_iff]
      simp

theorem get?_registerWake_of_ne (t : Timers) {id' : Nat} (owner : Option Nat) (hne : id' ≠ id) :
    (t.registerWake at_ id owner).wakeDeadlines.get? id' = t.wakeDeadlines.get? id' := by
  simp only [Timers.registerWake, get?_insert, if_neg hne, modify_wakeDeadlines]

theorem pendingIds_registerWake (t : Timers) (at_ id : Nat) (owner : Option Nat) :
    (t.registerWake at_ id owner).pendingIds.Perm (id :: t.pendingIds) := by
  obtain ⟨rest, h₁, h₂⟩ := pendingIds_alter t at_
    (fun e => some { e.getD {} with wakers := (e.getD {}).wakers ++ [(id, owner)] })
    (t.registerWake at_ id owner).wakeDeadlines
  have hids : undelivered (some { (t.entries.get? at_).getD {} with
      wakers := ((t.entries.get? at_).getD {}).wakers ++ [(id, owner)] }) =
      undelivered (t.entries.get? at_) ++ [id] := by
    cases t.entries.get? at_ <;> simp [undelivered]
  rw [hids, append_assoc] at h₂
  refine h₂.trans (perm_middle.trans ?_)
  exact h₁.symm.cons id

theorem Timers.Exact.addPending (h : t.Exact) (wake : Nat) (event : Bool) (me : Nat) :
    (t.addPending wake event me).Exact where
  indexed := by
    intro id at' slot
    have hsame : ∀ e : Entry, Entry.slot? (if event then { e with events := e.events + 1 }
        else { e with waits := e.waits + 1, owners := e.owners ++ [me] }) slot = e.slot? slot := by
      intro e
      cases event <;> cases slot <;> rfl
    rw [show (t.addPending wake event me).wakeDeadlines = t.wakeDeadlines from rfl, h.indexed,
      Timers.addPending, look_modify, hsame, ← look_eq_getD]
    split
    · next heq => rw [heq]
    · rfl
  nonempty := nonempty_modify h wake fun e => by
    rw [Bool.eq_false_iff, ne_eq, Entry.isEmpty_iff]
    cases event <;> simp

theorem pendingIds_addPending (t : Timers) (wake : Nat) (event : Bool) (me : Nat) :
    (t.addPending wake event me).pendingIds.Perm t.pendingIds := by
  refine pendingIds_alter_same t wake _ ?_
  cases t.entries.get? wake <;> cases event <;> rfl

/-! ## Dropping waits and events -/

theorem undelivered_insert_same {e' : Entry}
    (he : t.entries.get? at_ = some e) (hw : e'.wakers = e.wakers) :
    (Timers.pendingIds { t with entries := t.entries.insert at_ e' }).Perm t.pendingIds :=
  pendingIds_alter_same t at_ _ (by simp [undelivered, he, hw])

theorem Timers.Exact.unregisterTimer (h : t.Exact) {wake me : Nat}
    (ht : t.unregisterTimer wake me = some t') : t'.Exact ∧ t'.pendingIds.Perm t.pendingIds := by
  unfold Timers.unregisterTimer at ht
  split at ht
  · next e he =>
    split at ht
    · cases ht
      refine ⟨h.insert_dropEmpty (h.indexed.insert_same fun slot => ?_),
        (pendingIds_dropEmpty _ _).trans (undelivered_insert_same he rfl)⟩
      rw [Timers.look, he]
      cases slot <;> rfl
    · cases ht
  · cases ht

theorem Timers.Exact.unregisterEvent (h : t.Exact) (wake : Nat) :
    (t.unregisterEvent wake).Exact ∧ (t.unregisterEvent wake).pendingIds.Perm t.pendingIds := by
  unfold Timers.unregisterEvent
  split
  · next e he =>
    split
    · refine ⟨h.insert_dropEmpty (h.indexed.insert_same fun slot => ?_),
        (pendingIds_dropEmpty _ _).trans (undelivered_insert_same he rfl)⟩
      rw [Timers.look, he]
      cases slot <;> rfl
    · exact ⟨h, .refl _⟩
  · exact ⟨h, .refl _⟩

theorem unregisterTimer_wakeDeadlines {wake me : Nat}
    (ht : t.unregisterTimer wake me = some t') : t'.wakeDeadlines = t.wakeDeadlines := by
  unfold Timers.unregisterTimer at ht
  split at ht
  · split at ht
    · cases ht
      rfl
    · cases ht
  · cases ht

theorem unregisterEvent_wakeDeadlines (t : Timers) (wake : Nat) :
    (t.unregisterEvent wake).wakeDeadlines = t.wakeDeadlines := by
  unfold Timers.unregisterEvent
  split
  · split <;> rfl
  · rfl

/-! ## Taking wakers -/

theorem get?_reindex_of_not_mem (at_ : Nat) (hold : Bool) {ws : List (Nat × Option Nat)}
    (hid : id ∉ ws.map Prod.fst) (place : Nat) (index : SortedMap Nat (Nat × WakeSlot)) :
    (reindex at_ hold ws place index).get? id = index.get? id := by
  induction ws generalizing place index with
  | nil => rfl
  | cons w ws ih =>
    obtain ⟨w, owner⟩ := w
    simp only [map_cons, mem_cons, not_or] at hid
    unfold reindex
    split
    · rw [ih hid.2, get?_insert, if_neg hid.1]
    · rw [ih hid.2, get?_erase, if_neg hid.1]

theorem get?_reindex_of_mem (at_ : Nat) (hold : Bool) {ws : List (Nat × Option Nat)} {k : Nat}
    (hnodup : (ws.map Prod.fst).Nodup) (hk : (ws.map Prod.fst)[k]? = some id) (place : Nat)
    (index : SortedMap Nat (Nat × WakeSlot)) :
    (reindex at_ hold ws place index).get? id =
      if hold then some (at_, .held (place + k)) else none := by
  induction ws generalizing place index k with
  | nil => simp at hk
  | cons w ws ih =>
    obtain ⟨w, owner⟩ := w
    rw [map_cons, nodup_cons] at hnodup
    cases k with
    | zero =>
      obtain rfl : w = id := by simpa using hk
      unfold reindex
      split <;> simp_all [get?_reindex_of_not_mem, get?_insert, get?_erase]
    | succ k =>
      have hk' : (ws.map Prod.fst)[k]? = some id := by simpa using hk
      unfold reindex
      split
      · next hhold => rw [ih hnodup.2 hk', if_pos hhold,
          show place + 1 + k = place + (k + 1) by omega]
      · next hhold => rw [ih hnodup.2 hk', if_neg hhold]

variable {hold : Bool} {taken : List Nat}

theorem Timers.Indexed.takeWakersAt (h : t.Indexed)
    (ht : t.takeWakersAt at_ hold = some (t', taken)) : t'.Indexed := by
  obtain ⟨e, he, heq⟩ := Option.map_eq_some_iff.mp ht
  obtain ⟨rfl, rfl⟩ := Prod.mk.inj heq
  have hnodup := h.wakers_nodup he
  set ids := e.wakers.map Prod.fst with hids
  set n := e.awaiting.length with hn
  have hpending : ∀ k id, ids[k]? = some id → t.wakeDeadlines.get? id = some (at_, .pending k) := by
    intro k id hk
    rw [h, look, he]
    simpa [Entry.slot?, hids] using hk
  have hheld : ∀ k id, e.awaiting[k]? = some id →
      t.wakeDeadlines.get? id = some (at_, .held k) := by
    intro k id hk
    rw [h, look, he]
    exact hk
  intro id at' slot
  rw [look_insert]
  by_cases hid : id ∈ ids
  · obtain ⟨k, hk⟩ := mem_iff_getElem?.mp hid
    have hold_index := hpending k id hk
    rw [get?_reindex_of_mem at_ hold hnodup hk]
    by_cases hat : at' = at_
    · subst hat
      cases slot with
      | pending i => cases hold <;> simp [Entry.slot?]
      | held j =>
        -- the id is not among those already delivered, so it is at its place behind them
        have hnot : e.awaiting[j]? ≠ some id := by
          intro hj
          have := hheld j id hj
          rw [hold_index] at this
          simp at this
        cases hold with
        | false => simpa [Entry.slot?] using hnot
        | true =>
          simp only [if_true, Entry.slot?, Option.some.injEq, Prod.mk.injEq, true_and,
            WakeSlot.held.injEq]
          rcases Nat.lt_or_ge j n with hj | hj
          · rw [List.getElem?_append_left hj]
            exact ⟨fun heq => by omega, fun heq => absurd heq hnot⟩
          · rw [List.getElem?_append_right hj]
            refine ⟨fun heq => by rwa [← heq, ← hn, Nat.add_sub_cancel_left], fun heq => ?_⟩
            have := hpending _ id heq
            rw [hold_index] at this
            simp only [Option.some.injEq, Prod.mk.injEq, WakeSlot.pending.injEq, true_and] at this
            omega
    · rw [if_neg hat, ← h, hold_index]
      cases hold <;> simp [Ne.symm hat]
  · rw [get?_reindex_of_not_mem at_ hold hid, h]
    by_cases hat : at' = at_
    · subst hat
      rw [if_pos rfl, look, he]
      cases slot with
      | pending i =>
        have : (e.wakers[i]?).map Prod.fst ≠ some id := by
          intro hi
          exact hid (mem_of_getElem? (by simpa [hids] using hi))
        simpa [Entry.slot?] using this
      | held j =>
        cases hold with
        | false => rfl
        | true =>
          simp only [Option.bind_some, Entry.slot?, if_true]
          rcases Nat.lt_or_ge j n with hj | hj
          · rw [List.getElem?_append_left hj]
          · rw [List.getElem?_append_right hj, List.getElem?_eq_none hj]
            simp only [reduceCtorEq, false_iff]
            exact fun hi => hid (mem_of_getElem? hi)
    · rw [if_neg hat]

theorem pendingIds_takeWakersAt (ht : t.takeWakersAt at_ hold = some (t', taken)) :
    t.pendingIds.Perm (taken ++ t'.pendingIds) := by
  obtain ⟨e, he, heq⟩ := Option.map_eq_some_iff.mp ht
  obtain ⟨rfl, rfl⟩ := Prod.mk.inj heq
  obtain ⟨rest, h₁, h₂⟩ := pendingIds_alter t at_
    (fun _ => some { e with
      wakers := [], awaiting := if hold then e.awaiting ++ e.wakers.map Prod.fst else e.awaiting })
    (reindex at_ hold e.wakers e.awaiting.length t.wakeDeadlines)
  rw [he] at h₁
  exact h₁.trans (h₂.symm.append_left _)

theorem takeWakersAt_get?_ne {at' : Nat}
    (ht : t.takeWakersAt at_ hold = some (t', taken)) (hne : at' ≠ at_) :
    t'.entries.get? at' = t.entries.get? at' := by
  obtain ⟨e, he, heq⟩ := Option.map_eq_some_iff.mp ht
  obtain ⟨rfl, rfl⟩ := Prod.mk.inj heq
  rw [get?_insert, if_neg hne]

theorem Timers.Indexed.takeWakersAt_fresh (h : t.Indexed)
    (ht : t.takeWakersAt at_ hold = some (t', taken))
    (hid : t.wakeDeadlines.get? id = none) : t'.wakeDeadlines.get? id = none := by
  obtain ⟨e, he, heq⟩ := Option.map_eq_some_iff.mp ht
  obtain ⟨rfl, rfl⟩ := Prod.mk.inj heq
  have hnot : id ∉ e.wakers.map Prod.fst := by
    intro hmem
    obtain ⟨k, hk⟩ := mem_iff_getElem?.mp hmem
    have hlook : t.look at_ (.pending k) = some id := by
      rw [look, he]
      simpa [Entry.slot?] using hk
    rw [← h, hid] at hlook
    cases hlook
  rw [get?_reindex_of_not_mem at_ hold hnot, hid]

/-! ## Cancelling -/

/-- The index once the element at `i` of a list of ids is swapped out: the id that moved into its
place is found there. -/
def moveIndex (index : SortedMap Nat (Nat × WakeSlot)) (id at_ : Nat) (place : WakeSlot) :
    Option Nat → SortedMap Nat (Nat × WakeSlot)
  | some moved => (index.erase id).insert moved (at_, place)
  | none => index.erase id

/-- **Swapping an id out of one of its entry's lists.** `place j` is the place of the list's element
`j`, the places of the other list being left alone. -/
theorem Timers.Indexed.swapOut (h : t.Indexed) {i : Nat}
    (e' : Entry) (place : Nat → WakeSlot) {ids : List Nat} (hplace : Function.Injective place)
    (he : t.entries.get? at_ = some e) (hids : ∀ j, e.slot? (place j) = ids[j]?)
    (hids' : ∀ j, e'.slot? (place j) = (swapRemove ids i)[j]?)
    (hother : ∀ slot, (∀ j, slot ≠ place j) → e'.slot? slot = e.slot? slot)
    (hi : ids[i]? = some id) : Timers.Indexed ⟨t.entries.insert at_ e',
      moveIndex t.wakeDeadlines id at_ (place i) (swapRemove ids i)[i]?⟩ := by
  have hlook : ∀ slot, t.look at_ slot = e.slot? slot := fun slot => by rw [look, he]; rfl
  -- an id has one place, so the list has no id twice
  have hindex : ∀ j id', ids[j]? = some id' → t.wakeDeadlines.get? id' = some (at_, place j) := by
    intro j id' hj
    rw [h, hlook, hids, hj]
  have hunique : ∀ (j j' id' : Nat), ids[j]? = some id' → ids[j']? = some id' → j = j' := by
    intro j j' id' hj hj'
    have := hindex j id' hj
    rw [hindex j' id' hj'] at this
    simp only [Option.some.injEq, Prod.mk.injEq, true_and] at this
    exact (hplace this).symm
  obtain ⟨hlt, -⟩ := List.getElem?_eq_some_iff.mp hi
  have hswap := getElem?_swapRemove hlt
  obtain ⟨last, hlast⟩ : ∃ last, ids[ids.length - 1]? = some last :=
    ⟨_, List.getElem?_eq_getElem (by omega)⟩
  have hlastIndex := hindex _ last hlast
  -- where an id is found after the swap
  have hfound : ∀ j id', (swapRemove ids i)[j]? = some id' ↔
      (j = i ∧ id' = last ∧ i ≠ ids.length - 1) ∨ (j ≠ i ∧ ids[j]? = some id' ∧ id' ≠ last) := by
    intro j id'
    rw [hswap]
    by_cases hji : j = i
    · subst hji
      by_cases hend : j = ids.length - 1
      · simp [← hend]
      · simp [show j < ids.length - 1 by omega, hlast, hend, eq_comm]
    · by_cases hend : j < ids.length - 1
      · simp only [hend, if_true, hji, if_false, false_and, false_or, ne_eq, not_false_eq_true,
          true_and]
        refine ⟨fun hj => ⟨hj, ?_⟩, fun hj => hj.1⟩
        rintro rfl
        have := hunique _ _ _ hj hlast
        omega
      · simp only [hend, if_false, reduceCtorEq, hji, false_and, false_or, ne_eq,
          not_false_eq_true, true_and, false_iff, not_and]
        intro hj hne
        have hj' := (List.getElem?_eq_some_iff.mp hj).1
        rw [show j = ids.length - 1 by omega, hlast] at hj
        exact hne (Option.some.inj hj).symm
  -- where the index finds it
  have hmoved : ∀ id',
      (moveIndex t.wakeDeadlines id at_ (place i) (swapRemove ids i)[i]?).get? id' =
      if id' = last ∧ i ≠ ids.length - 1 then some (at_, place i)
      else if id' = id then none else t.wakeDeadlines.get? id' := by
    intro id'
    rw [hswap]
    by_cases hend : i = ids.length - 1
    · simp [← hend, moveIndex, get?_erase]
    · simp only [show i < ids.length - 1 by omega, if_true, hlast, moveIndex,
        get?_insert, get?_erase, hend, ne_eq, not_false_eq_true, and_true]
  intro id' at' slot
  rw [hmoved, look_insert]
  by_cases hrange : ∃ j, (at', slot) = (at_, place j)
  · obtain ⟨j, ⟨⟩⟩ := hrange
    rw [if_pos rfl, hids', hfound]
    by_cases hl : id' = last ∧ i ≠ ids.length - 1
    · simp [hl, hplace.eq_iff, eq_comm]
    · rw [if_neg hl]
      by_cases hid : id' = id
      · subst hid
        simp only [if_true, reduceCtorEq, false_iff, not_or, not_and]
        exact ⟨fun _ h₁ h₂ => hl ⟨h₁, h₂⟩, fun hne hj => absurd (hunique _ _ _ hj hi) hne⟩
      · rw [if_neg hid, h, hlook, hids]
        refine ⟨fun hj => .inr ⟨?_, hj, ?_⟩, ?_⟩
        · rintro rfl
          exact hid (Option.some.inj (hj.symm.trans hi))
        · rintro rfl
          -- the last id stays where it was only if it was the one cancelled
          have hend : i = ids.length - 1 := by
            by_contra hne
            exact hl ⟨rfl, hne⟩
          rw [← hend] at hlast
          exact hid (Option.some.inj (hlast.symm.trans hi))
        · rintro (⟨-, hlast', hne⟩ | ⟨-, hj, -⟩)
          · exact absurd ⟨hlast', hne⟩ hl
          · exact hj
  · -- what is found at other places is as before
    push Not at hrange
    have hsame : (if at' = at_ then e'.slot? slot else t.look at' slot) = t.look at' slot := by
      split
      · next hat => rw [hat, hlook, hother slot fun j hj => hrange j (by rw [hat, hj])]
      · rfl
    rw [hsame, ← h]
    by_cases hl : id' = last ∧ i ≠ ids.length - 1
    · simp [hl, hlastIndex, Ne.symm (hrange _)]
    · by_cases hid : id' = id
      · subst hid
        simp [hl, hindex i _ hi, Ne.symm (hrange _)]
      · simp [hl, hid]

theorem get?_moveIndex_fresh {index : SortedMap Nat (Nat × WakeSlot)} {ids : List Nat} {i id' : Nat}
    (hi : ids[i]? = some id) (hids : ∀ x ∈ ids, index.get? x ≠ none) (hid' : index.get? id' = none)
    (at_ : Nat) (place : WakeSlot) :
    (moveIndex index id at_ place (swapRemove ids i)[i]?).get? id' = none := by
  cases hmoved : (swapRemove ids i)[i]? with
  | none =>
    rw [moveIndex, get?_erase, hid']
    split <;> rfl
  | some moved =>
    have hne : id' ≠ moved := by
      rintro rfl
      have hmem : id' ∈ ids :=
        (swapRemove_perm hi).mem_iff.mpr (mem_cons_of_mem _ (mem_of_getElem? hmoved))
      exact hids id' hmem hid'
    rw [moveIndex, get?_insert, if_neg hne, get?_erase, hid']
    split <;> rfl

/-- How a cancel of an exact table ends: without the id, or with it gone and its waker returned if
it was not yet delivered. It never panics. -/
theorem Timers.Exact.cancelWake (h : t.Exact) (id : Nat) :
    (t.cancelWake id = .absent ∧ t.wakeDeadlines.get? id = none) ∨
      ∃ t' waker, t.cancelWake id = .done t' waker ∧ t'.Exact ∧
        t.pendingIds.Perm (waker.toList ++ t'.pendingIds) ∧
        ∀ id', t.wakeDeadlines.get? id' = none → t'.wakeDeadlines.get? id' = none := by
  cases hindex : t.wakeDeadlines.get? id with
  | none => exact .inl ⟨by simp [Timers.cancelWake, hindex], rfl⟩
  | some p =>
    obtain ⟨at_, slot⟩ := p
    have hlook := (h.indexed id at_ slot).mp hindex
    obtain ⟨e, he, hslot⟩ := Option.bind_eq_some_iff.mp hlook
    have hknown : ∀ slot x, e.slot? slot = some x → t.wakeDeadlines.get? x ≠ none := by
      intro slot x hx
      have : t.look at_ slot = some x := by rw [look, he]; exact hx
      rw [← h.indexed] at this
      simp [this]
    cases slot with
    | pending i =>
      obtain ⟨⟨id', owner⟩, hi, rfl⟩ := Option.map_eq_some_iff.mp hslot
      have hids : (e.wakers.map Prod.fst)[i]? = some id' := by simp [hi]
      have hindexed := h.indexed.swapOut { e with wakers := swapRemove e.wakers i }
        .pending (fun _ _ => WakeSlot.pending.inj) he (fun j => by simp [Entry.slot?])
        (fun j => by rw [← map_swapRemove]; simp [Entry.slot?])
        (fun slot hslot => by cases slot with
          | pending j => exact absurd rfl (hslot j)
          | held j => rfl) hids
      rw [← map_swapRemove, List.getElem?_map] at hindexed
      refine .inr ⟨_, some id', ?_, h.insert_dropEmpty hindexed, ?_, fun x hx => ?_⟩
      · simp only [Timers.cancelWake, hindex, he, hi]
        rfl
      · obtain ⟨rest, h₁, h₂⟩ := pendingIds_alter t at_
          (fun _ => some { e with wakers := swapRemove e.wakers i })
          (moveIndex t.wakeDeadlines id' at_ (.pending i)
            ((swapRemove e.wakers i)[i]?.map Prod.fst))
        rw [he] at h₁
        have hperm : (e.wakers.map Prod.fst).Perm
            (id' :: (swapRemove e.wakers i).map Prod.fst) := by
          rw [map_swapRemove]
          exact swapRemove_perm hids
        refine h₁.trans ((hperm.append_right rest).trans ?_)
        exact (h₂.symm.trans (pendingIds_dropEmpty _ at_).symm).cons id'
      · have hfresh := get?_moveIndex_fresh hids (fun y hy => ?_) hx at_ (.pending i)
        · rwa [← map_swapRemove, List.getElem?_map] at hfresh
        · obtain ⟨k, hk⟩ := mem_iff_getElem?.mp hy
          exact hknown (.pending k) y (by simpa [Entry.slot?] using hk)
    | held i =>
      have hindexed := h.indexed.swapOut { e with awaiting := swapRemove e.awaiting i }
        .held (fun _ _ => WakeSlot.held.inj) he (fun j => rfl) (fun j => rfl)
        (fun slot hslot => by cases slot with
          | pending j => rfl
          | held j => exact absurd rfl (hslot j)) hslot
      refine .inr ⟨_, none, ?_, h.insert_dropEmpty hindexed, ?_, fun x hx => ?_⟩
      · simp only [Timers.cancelWake, hindex, he, (List.getElem?_eq_some_iff.mp hslot).1, if_true]
        rfl
      · exact ((pendingIds_dropEmpty _ at_).trans
          (pendingIds_alter_same t at_ _ (by simp [undelivered, he]))).symm
      · refine get?_moveIndex_fresh hslot (fun y hy => ?_) hx at_ (.held i)
        obtain ⟨k, hk⟩ := mem_iff_getElem?.mp hy
        exact hknown (.held k) y hk

/-! ## Delivering what is due -/

/-- What a table's delivery up to an instant does: the wakers taken leave the undelivered ones, and
what is due later is untouched. -/
structure Delivered (t : Timers) (upto : Nat) (t' : Timers) (taken : List Nat) : Prop where
  exact_ : t'.Exact
  perm : t.pendingIds.Perm (taken ++ t'.pendingIds)
  later : ∀ at_, upto < at_ → t'.entries.get? at_ = t.entries.get? at_
  fresh : ∀ id, t.wakeDeadlines.get? id = none → t'.wakeDeadlines.get? id = none

theorem Delivered.refl (h : t.Exact) (upto : Nat) : Delivered t upto t [] :=
  ⟨h, .refl _, fun _ _ => rfl, fun _ => id⟩

theorem Delivered.trans {t'' : Timers} {taken' : List Nat}
    (h : Delivered t upto t' taken) (h' : Delivered t' upto t'' taken') :
    Delivered t upto t'' (taken ++ taken') where
  exact_ := h'.exact_
  perm := by
    rw [append_assoc]
    exact h.perm.trans (h'.perm.append_left _)
  later := fun at_ hat => (h'.later at_ hat).trans (h.later at_ hat)
  fresh := fun id hid => h'.fresh id (h.fresh id hid)

theorem dropEmpty_get?_ne (t : Timers) {at' : Nat} (hne : at' ≠ at_) :
    (t.dropEmpty at_).entries.get? at' = t.entries.get? at' := by
  simp only [Timers.dropEmpty, get?_alter, if_neg hne]

theorem Timers.Exact.takeWakersAt (h : t.Exact) (hle : at_ ≤ upto)
    (ht : t.takeWakersAt at_ hold = some (t', taken)) :
    Delivered t upto (t'.dropEmpty at_) taken where
  exact_ := ⟨(h.indexed.takeWakersAt ht).dropEmpty at_,
    nonempty_dropEmpty fun at' e hne he => h.nonempty at' e (takeWakersAt_get?_ne ht hne ▸ he)⟩
  perm := (pendingIds_takeWakersAt ht).trans ((pendingIds_dropEmpty t' at_).symm.append_left _)
  later := fun at' hat => by
    have hne : at' ≠ at_ := by omega
    rw [dropEmpty_get?_ne _ hne, takeWakersAt_get?_ne ht hne]
  fresh := fun _ hid => show t'.wakeDeadlines.get? _ = none from
    h.indexed.takeWakersAt_fresh ht hid

/-- **Delivering instant by instant.** A loop over due instants delivers what its steps do; `b`
carries the table and the wakers so far. -/
theorem foldl_delivered {β : Type*} (table : β → Timers) (wakers : β → List Nat)
    {f : β → Nat → β} (hstep : ∀ b at_, (table b).Exact → at_ ≤ upto →
      ∃ taken, wakers (f b at_) = wakers b ++ taken ∧
        Delivered (table b) upto (table (f b at_)) taken)
    {due : List Nat} (hdue : ∀ at_ ∈ due, at_ ≤ upto) {b : β} (h : (table b).Exact) :
    ∃ taken, wakers (due.foldl f b) = wakers b ++ taken ∧
      Delivered (table b) upto (table (due.foldl f b)) taken := by
  induction due generalizing b with
  | nil => exact ⟨[], (append_nil _).symm, .refl h upto⟩
  | cons at_ due ih =>
    obtain ⟨taken, heq, hdel⟩ := hstep b at_ h (hdue at_ mem_cons_self)
    obtain ⟨taken', heq', hdel'⟩ := ih (fun x hx => hdue x (mem_cons_of_mem _ hx)) hdel.exact_
    exact ⟨taken ++ taken', by rw [foldl_cons, heq', heq, append_assoc], hdel.trans hdel'⟩

theorem takeAt_delivered {acc : Timers × List Nat} (h : acc.1.Exact) (hold : Bool)
    (hle : at_ ≤ upto) : ∃ taken, (Timers.takeAt hold acc at_).2 = acc.2 ++ taken ∧
      Delivered acc.1 upto (Timers.takeAt hold acc at_).1 taken := by
  unfold Timers.takeAt
  cases ht : acc.1.takeWakersAt at_ hold with
  | none => exact ⟨[], (append_nil _).symm, .refl h upto⟩
  | some p => exact ⟨_, rfl, h.takeWakersAt hle ht⟩

theorem fireAt_delivered {acc : Timers × Nat × List Nat} (h : acc.1.Exact) (hold foreign : Bool)
    (from_ : Nat) (hle : at_ ≤ upto) :
    ∃ taken, (Timers.fireAt hold foreign from_ acc at_).2.2 = acc.2.2 ++ taken ∧
      Delivered acc.1 upto (Timers.fireAt hold foreign from_ acc at_).1 taken := by
  obtain ⟨t, count, wakers⟩ := acc
  unfold Timers.fireAt
  cases he : t.entries.get? at_ with
  | none => exact ⟨[], by simp [he], by simpa only [he] using .refl h upto⟩
  | some e =>
    -- without its events the entry may be empty, so the table is exact again only at the end
    set t₁ : Timers := { t with entries := t.entries.insert at_ { e with events := 0 } } with ht₁
    have hindexed : t₁.Indexed := h.indexed.insert_same fun slot => by
      rw [Timers.look, he]
      cases slot <;> rfl
    have hne : ∀ at' e', at' ≠ at_ → t₁.entries.get? at' = some e' → e'.isEmpty = false := by
      intro at' e' hne he'
      rw [ht₁, get?_insert, if_neg hne] at he'
      exact h.nonempty at' e' he'
    cases htake : t₁.takeWakersAt at_ hold with
    | none => simp [Timers.takeWakersAt, ht₁, get?_insert] at htake
    | some p =>
      obtain ⟨t₂, taken⟩ := p
      simp only [he, ← ht₁, htake]
      refine ⟨taken, rfl, ?_, ?_, ?_, fun id hid => show t₂.wakeDeadlines.get? id = none from
        hindexed.takeWakersAt_fresh htake hid⟩
      · exact ⟨(hindexed.takeWakersAt htake).dropEmpty at_, nonempty_dropEmpty fun at' e' hat he' =>
          hne at' e' hat (takeWakersAt_get?_ne htake hat ▸ he')⟩
      · have hsame : t₁.pendingIds.Perm t.pendingIds := undelivered_insert_same he rfl
        exact hsame.symm.trans ((pendingIds_takeWakersAt htake).trans
          ((pendingIds_dropEmpty t₂ at_).symm.append_left _))
      · intro at' hat
        have hat' : at' ≠ at_ := by omega
        rw [dropEmpty_get?_ne _ hat', takeWakersAt_get?_ne htake hat', ht₁,
          get?_insert, if_neg hat']

theorem fireUpto_delivered (h : t.Exact) (hold foreign : Bool) (from_ upto : Nat) :
    Delivered t upto (t.fireUpto hold foreign from_ upto).1
      (t.fireUpto hold foreign from_ upto).2.2 := by
  have hdue : ∀ at_ ∈ (t.entries.entries.filter fun e => e.1 ≤ upto).map Prod.fst, at_ ≤ upto := by
    intro at_ hat
    obtain ⟨e, he, rfl⟩ := mem_map.mp hat
    simpa using (mem_filter.mp he).2
  obtain ⟨taken, heq, hdel⟩ := foldl_delivered Prod.fst (fun acc => acc.2.2)
    (fun acc at_ h hle => fireAt_delivered h hold foreign from_ hle) hdue (b := (t, 0, [])) h
  unfold Timers.fireUpto
  rw [heq]
  exact hdel

theorem takeWakers_delivered (h : t.Exact) (hold : Bool) (upto : Nat) :
    Delivered t upto (t.takeWakers hold upto).1 (t.takeWakers hold upto).2 := by
  have hdue : ∀ at_ ∈ (t.entries.entries.filter fun e =>
      e.1 ≤ upto && !e.2.wakers.isEmpty).map Prod.fst, at_ ≤ upto := by
    intro at_ hat
    obtain ⟨e, he, rfl⟩ := mem_map.mp hat
    have := (mem_filter.mp he).2
    simp only [Bool.and_eq_true, decide_eq_true_eq] at this
    exact this.1
  obtain ⟨taken, heq, hdel⟩ := foldl_delivered Prod.fst Prod.snd
    (fun acc at_ h hle => takeAt_delivered h hold hle) hdue (b := (t, [])) h
  unfold Timers.takeWakers
  rw [heq]
  exact hdel

theorem mem_ids_iff : id ∈ e.ids ↔ ∃ slot, e.slot? slot = some id := by
  constructor
  · intro h
    rcases mem_append.mp h with h | h
    · obtain ⟨i, hi⟩ := mem_iff_getElem?.mp h
      exact ⟨.held i, hi⟩
    · obtain ⟨i, hi⟩ := mem_iff_getElem?.mp h
      exact ⟨.pending i, by simpa [Entry.slot?] using hi⟩
  · rintro ⟨slot, h⟩
    cases slot with
    | pending i => exact mem_append_right _ (mem_of_getElem? (by simpa [Entry.slot?] using h))
    | held i => exact mem_append_left _ (mem_of_getElem? h)

theorem takeUpto_delivered (h : t.Exact) (upto : Nat) :
    Delivered t upto (takeUpto t upto).1 (takeUpto t upto).2.2 := by
  set first := satAdd upto 1 with hfirst
  have hget : ∀ at_, (takeUpto t upto).1.entries.get? at_ =
      (t.entries.get? at_).filter fun _ => decide (first ≤ at_) :=
    fun at_ => t.entries.get?_retain _ at_
  have hlook : ∀ at_ slot, (takeUpto t upto).1.look at_ slot =
      if first ≤ at_ then t.look at_ slot else none := by
    intro at_ slot
    rw [Timers.look, hget, Timers.look]
    by_cases hle : first ≤ at_ <;> cases t.entries.get? at_ <;> simp [Option.filter, hle]
  refine ⟨⟨?_, ?_⟩, ?_, ?_, fun id hid => ?_⟩
  · intro id at_ slot
    rw [hlook]
    simp only [takeUpto, get?_foldl_erase, ← hfirst]
    -- the ids erased are those the due entries held
    have hmem : (id ∈ (t.entries.entries.filter fun e => e.1 < first).flatMap fun e => e.2.ids) ↔
        ∃ at_ slot, at_ < first ∧ t.look at_ slot = some id := by
      simp only [mem_flatMap, mem_filter, decide_eq_true_eq, mem_ids_iff, Prod.exists]
      constructor
      · rintro ⟨at_, e, ⟨hmem, hlt⟩, slot, hslot⟩
        exact ⟨at_, slot, hlt, by rw [Timers.look, get?_eq_some_iff.mpr hmem]; exact hslot⟩
      · rintro ⟨at_, slot, hlt, hl⟩
        obtain ⟨e, he, hslot⟩ := Option.bind_eq_some_iff.mp hl
        exact ⟨at_, e, ⟨get?_eq_some_iff.mp he, hlt⟩, slot, hslot⟩
    split
    · next hdue =>
      obtain ⟨at', slot', hlt, hl⟩ := hmem.mp hdue
      simp only [reduceCtorEq, false_iff]
      split
      · next hle =>
        intro hl'
        rw [← h.indexed] at hl hl'
        rw [hl] at hl'
        simp only [Option.some.injEq, Prod.mk.injEq] at hl'
        omega
      · simp
    · next hdue =>
      rw [h.indexed]
      split
      · rfl
      · next hle =>
        simp only [reduceCtorEq, iff_false]
        exact fun hl => hdue (hmem.mpr ⟨at_, slot, by omega, hl⟩)
  · intro at_ e he
    rw [hget] at he
    exact h.nonempty at_ e (Option.filter_eq_some_iff.mp he).1
  · have hsplit := (filter_append_perm (fun e : Nat × Entry => decide (e.1 < first))
      t.entries.entries).symm.flatMap_right fun e => e.2.wakers.map Prod.fst
    rw [flatMap_append] at hsplit
    refine hsplit.trans (List.Perm.of_eq ?_)
    simp only [takeUpto, Timers.pendingIds, retain, ← hfirst]
    congr 3
    funext e
    simp only [← decide_not, Nat.not_lt]
  · intro at_ hat
    rw [hget]
    have hle : first ≤ at_ := by
      simp only [hfirst, satAdd]
      omega
    cases t.entries.get? at_ <;> simp [Option.filter, hle]
  · simp only [takeUpto, get?_foldl_erase, hid]
    split <;> rfl

end Snare.Time
