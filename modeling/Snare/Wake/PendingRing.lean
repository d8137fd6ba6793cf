import Snare.Lib.Runs
import Snare.Wake.Pending

/-!
# What the ring keeps

Tickets are numbered without end; a slot serves the one ticket of its residue in the window of
`capacity` tickets from `freed` on. Its sequence number says which: `n` while ticket `n` may be
claimed or its value is not in yet, `n + 1` once it is published (`SlotsOk`).

* **`Pending.ring_order`**: along every run in which no push sleeps through half the numbers of a
  word;
* **`Pending.stale_push_refused`**: the run in which a push does sleep that long.
-/

namespace Snare.Wake

open Function List

/-! ## Words -/

variable {a b : Nat}

theorem mod_word_inj (h : a % word = b % word) (hle : a ≤ b) (hlt : b < a + word) : a = b := by
  simp only [word] at h hlt
  omega

theorem mod_word_mod_capacity (n : Nat) : n % word % capacity = n % capacity := by
  simp only [word, capacity]
  omega

theorem wrappingAdd_mod (n k : Nat) : wrappingAdd (n % word) k = (n + k) % word := by
  simp only [wrappingAdd, word]
  omega

theorem eq_of_window {low m n : Nat} (hm : low ≤ m) (hm' : m < low + capacity) (hn : low ≤ n)
    (hn' : n < low + capacity) (h : m % capacity = n % capacity) : m = n := by
  simp only [capacity] at *
  omega

theorem exists_window (low n : Nat) :
    ∃ m, low ≤ m ∧ m < low + capacity ∧ m % capacity = n % capacity := by
  refine ⟨low + (n % capacity + capacity - low % capacity) % capacity, ?_, ?_, ?_⟩ <;>
    simp only [capacity] <;> omega

theorem wrappingSub_mod (hlow : b ≤ a + capacity) (hhigh : a < b + word / 2) :
    (a % word + (word - b % word)) % word = if b ≤ a then a - b else a + word - b := by
  simp only [word, capacity, Nat.reducePow, Nat.reduceDiv] at *
  obtain ⟨q, r, hr, rfl⟩ : ∃ q r, r < 18446744073709551616 ∧ b = 18446744073709551616 * q + r :=
    ⟨b / 18446744073709551616, b % 18446744073709551616, by omega, by omega⟩
  have hb : (18446744073709551616 * q + r) % 18446744073709551616 = r := by omega
  split <;> omega

theorem wrappingSign_mod (hlow : b ≤ a + capacity) (hhigh : a < b + word / 2) :
    wrappingSign (a % word) (b % word) = if a = b then .eq else if b < a then .gt else .lt := by
  unfold wrappingSign
  rw [wrappingSub_mod hlow hhigh]
  simp only [word, capacity, Nat.reducePow, Nat.reduceDiv] at *
  split_ifs <;> first | rfl | omega

namespace Pending

variable {T : Type}

/-! ## The invariant -/

/-- The push has claimed ticket `n` and not published it. -/
def Holds : Push T → Nat → Prop
  | .claimed _ _ ticket, n => ticket = n
  | .written _ _ ticket, n => ticket = n
  | _, _ => False

structure SlotsOk (slots : Nat → Slot T) (pushes : Nat → Push T) (log : List (Nat × T))
    (freed : Nat) : Prop where
  free : ∀ n, log.length ≤ n → n < freed + capacity → (slots (n % capacity)).seq = n % word
  used : ∀ n t v, freed ≤ n → log[n]? = some (t, v) →
    ((slots (n % capacity)).seq = n % word ∧ Holds (pushes t) n)
      ∨ ((slots (n % capacity)).seq = (n + 1) % word ∧ (slots (n % capacity)).value = some v)

/-- What a push between its claim and its publication knows. -/
structure Owns (slots : Nat → Slot T) (log : List (Nat × T)) (freed : Nat)
    (returned : List (Nat × Nat × T)) (t pos : Nat) (v : T) (ticket : Nat) : Prop where
  pos : pos = ticket % word
  live : freed ≤ ticket
  mine : log[ticket]? = some (t, v)
  seq : (slots (ticket % capacity)).seq = ticket % word
  last : ∀ e ∈ returned, e.1 = t → e.2.1 < ticket

/-- What a push knows at each of its accesses. -/
def PushOk (slots : Nat → Slot T) (log : List (Nat × T)) (freed : Nat)
    (returned : List (Nat × Nat × T)) (t : Nat) : Push T → Prop
  | .idle => True
  | .reload _ => True
  | .loaded pos _ seen => pos = seen % word ∧ seen ≤ log.length
  | .checked pos _ seen => pos = seen % word ∧ seen ≤ log.length ∧ seen < freed + capacity
  | .claimed pos v ticket => Owns slots log freed returned t pos v ticket
  | .written pos v ticket => Owns slots log freed returned t pos v ticket
      ∧ (slots (ticket % capacity)).value = some v

/-- What the drain knows between two values: it is at the first ticket not given back. -/
structure Between (log : List (Nat × T)) (freed handed : Nat) (due : List Nat)
    (stop goal : Nat) : Prop where
  stop_eq : stop = goal % word
  freed_eq : freed = handed
  freed_le : freed ≤ goal
  goal_le : goal ≤ log.length
  due_lt : ∀ k ∈ due, k < goal

/-- What the drain knows at each of its accesses. -/
def DrainOk (slots : Nat → Slot T) (log : List (Nat × T)) (freed handed : Nat)
    (due : List Nat) : Drain T → Prop
  | .idle => freed = handed ∧ ∀ k ∈ due, k < freed
  | .ended stop goal => Between log freed handed due stop goal
  | .looking pos stop goal => pos = freed % word ∧ Between log freed handed due stop goal
  | .filled pos stop goal => pos = freed % word ∧ Between log freed handed due stop goal
      ∧ freed < goal ∧ (slots (freed % capacity)).seq = (freed + 1) % word
  | .read pos stop goal value => pos = freed % word ∧ Between log freed handed due stop goal
      ∧ freed < goal ∧ (slots (freed % capacity)).seq = (freed + 1) % word
      ∧ value = log[freed]?.map (·.2)
  | .stored pos stop goal value => pos = handed % word
      ∧ Between log freed (handed + 1) due stop goal ∧ value = log[handed]?.map (·.2)

structure Inv (p : Pending T) : Prop where
  tail : p.tail = p.log.length % word
  head : p.head = p.out.length % word
  below : p.freed ≤ p.log.length
  room : p.log.length ≤ p.freed + capacity
  slots : SlotsOk p.slots p.pushes p.log p.freed
  pushes : ∀ t, PushOk p.slots p.log p.freed p.returned t (p.pushes t)
  drain : DrainOk p.slots p.log p.freed p.out.length p.due p.drain
  out : p.out = (p.log.take p.out.length).map fun e => some e.2
  returned : ∀ e ∈ p.returned, p.log[e.2.1]? = some (e.1, e.2.2)
  order : p.returned.Pairwise fun a b => a.1 = b.1 → a.2.1 < b.2.1
  refusals : ∀ n ∈ p.refusals, n = capacity

theorem inv_new : (new : Pending T).Inv where
  tail := rfl
  head := rfl
  below := Nat.le_refl 0
  room := Nat.zero_le _
  slots := by
    refine ⟨fun n _ hn => ?_, fun n t v _ hlog => by cases hlog⟩
    simp only [new, word, capacity] at hn ⊢
    omega
  pushes _ := trivial
  drain := ⟨rfl, nofun⟩
  out := rfl
  returned := nofun
  order := .nil
  refusals := nofun

/-! ## Accesses that only move a push along -/

variable {p : Pending T} {t freed handed stop goal pos k t' : Nat} {push : Push T}

theorem Inv.setPush (h : p.Inv) (hold : ∀ n, ¬ Holds (p.pushes t) n)
    (hpush : PushOk p.slots p.log p.freed p.returned t push) : (p.setPush t push).Inv where
  __ := h
  slots := by
    refine ⟨h.slots.free, fun n t' v hn hlog => ?_⟩
    rcases h.slots.used n t' v hn hlog with ⟨hseq, hholds⟩ | hfilled
    · refine .inl ⟨hseq, ?_⟩
      have hne : t' ≠ t := fun heq => hold n (heq ▸ hholds)
      simpa only [Pending.setPush, update_of_ne hne] using hholds
    · exact .inr hfilled
  pushes t' := by
    by_cases ht : t' = t
    · subst ht
      simpa only [Pending.setPush, update_self] using hpush
    · simpa only [Pending.setPush, update_of_ne ht] using h.pushes t'

theorem Inv.loadTail (h : p.Inv) (value : T)
    (hold : ∀ n, ¬ Holds (p.pushes t) n) : (p.loadTail t value).Inv :=
  h.setPush hold ⟨h.tail, Nat.le_refl _⟩

/-! ## The claim -/

theorem Inv.handed_le (h : p.Inv) : p.out.length ≤ p.freed := by
  have hdrain := h.drain
  cases hd : p.drain <;> simp only [hd, DrainOk] at hdrain
  case idle => exact hdrain.1.ge
  case ended => exact hdrain.freed_eq.ge
  case looking => exact hdrain.2.freed_eq.ge
  case filled => exact hdrain.2.1.freed_eq.ge
  case read => exact hdrain.2.1.freed_eq.ge
  case stored =>
    have := hdrain.2.1.freed_eq
    omega

variable {slots : Nat → Slot T} {log : List (Nat × T)} {returned : List (Nat × Nat × T)}

theorem PushOk.append_log (h : PushOk slots log freed returned t push) (e : Nat × T) :
    PushOk slots (log ++ [e]) freed returned t push := by
  have howns : ∀ {pos v ticket}, Owns slots log freed returned t pos v ticket →
      Owns slots (log ++ [e]) freed returned t pos v ticket := fun h =>
    { h with
      mine := by rw [List.getElem?_append_left (List.getElem?_eq_some_iff.mp h.mine).1, h.mine] }
  cases push <;> simp only [PushOk, length_append, length_singleton] at h ⊢
  case loaded => exact ⟨h.1, Nat.le_succ_of_le h.2⟩
  case checked => exact ⟨h.1, Nat.le_succ_of_le h.2.1, h.2.2⟩
  case claimed => exact howns h
  case written => exact ⟨howns h.1, h.2⟩

variable {due : List Nat}

theorem Between.append_log (h : Between log freed handed due stop goal) (e : Nat × T) :
    Between (log ++ [e]) freed handed due stop goal :=
  { h with goal_le := by rw [length_append]; exact Nat.le_add_right_of_le h.goal_le }

theorem DrainOk.append_log {drain : Drain T} (h : DrainOk slots log freed handed due drain)
    (e : Nat × T) : DrainOk slots (log ++ [e]) freed handed due drain := by
  cases drain <;> simp only [DrainOk] at h ⊢
  case idle => exact h
  case ended => exact h.append_log e
  case looking => exact ⟨h.1, h.2.append_log e⟩
  case filled => exact ⟨h.1, h.2.1.append_log e, h.2.2⟩
  case read =>
    obtain ⟨hpos, hbetween, hlt, hseq, hvalue⟩ := h
    refine ⟨hpos, hbetween.append_log e, hlt, hseq, ?_⟩
    rw [List.getElem?_append_left (Nat.lt_of_lt_of_le hlt hbetween.goal_le)]
    exact hvalue
  case stored =>
    obtain ⟨hpos, hbetween, hvalue⟩ := h
    refine ⟨hpos, hbetween.append_log e, ?_⟩
    have hlt := hbetween.freed_eq ▸ hbetween.freed_le
    rw [List.getElem?_append_left (Nat.lt_of_lt_of_le hlt hbetween.goal_le)]
    exact hvalue

variable {v : T}

theorem Inv.claim (h : p.Inv)
    (hold : ∀ n, ¬ Holds (p.pushes t) n) (hpos : pos = p.log.length % word)
    (hroom : p.log.length < p.freed + capacity) :
    ({ p.setPush t (.claimed pos v p.claimed) with
        tail := wrappingAdd pos 1
        log := p.log ++ [(t, v)] } : Pending T).Inv := by
  have hfree := h.slots.free p.log.length (Nat.le_refl _) hroom
  have hlast : (p.log ++ [(t, v)])[p.log.length]? = some (t, v) := by simp
  have hlen : (p.log ++ [(t, v)]).length = p.log.length + 1 := by simp
  refine ⟨?_, h.head, ?_, ?_, ⟨?_, ?_⟩, fun t' => ?_, h.drain.append_log _, ?_, ?_, h.order,
    h.refusals⟩
  · rw [hpos, wrappingAdd_mod, hlen]
  · rw [hlen]
    exact Nat.le_succ_of_le h.below
  · rw [hlen]
    exact hroom
  · intro n hn
    exact h.slots.free n (Nat.le_of_succ_le (by simpa using hn))
  · intro n t' v' hn hlog
    rcases Nat.lt_or_ge n p.log.length with hlt | hge
    · rw [List.getElem?_append_left hlt] at hlog
      rcases h.slots.used n t' v' hn hlog with ⟨hseq, hholds⟩ | hfilled
      · have hne : t' ≠ t := fun heq => hold n (heq ▸ hholds)
        refine .inl ⟨hseq, ?_⟩
        simpa only [Pending.setPush, update_of_ne hne] using hholds
      · exact .inr hfilled
    · -- the new ticket
      have hn' : n = p.log.length := by
        have := (List.getElem?_eq_some_iff.mp hlog).1
        simp only [hlen] at this
        omega
      subst hn'
      rw [hlast] at hlog
      cases hlog
      refine .inl ⟨hfree, ?_⟩
      simp only [Pending.setPush, update_self, Holds, Pending.claimed]
  · by_cases ht : t' = t
    · subst ht
      simp only [Pending.setPush, update_self, PushOk, Pending.claimed]
      refine ⟨hpos, h.below, hlast, hfree, fun e he _ => ?_⟩
      exact (List.getElem?_eq_some_iff.mp (h.returned e he)).1
    · simpa only [Pending.setPush, update_of_ne ht] using (h.pushes t').append_log _
  · show p.out = ((p.log ++ [(t, v)]).take p.out.length).map fun e => some e.2
    rw [take_append_of_le_length (h.handed_le.trans h.below)]
    exact h.out
  · intro e he
    rw [List.getElem?_append_left (List.getElem?_eq_some_iff.mp (h.returned e he)).1]
    exact h.returned e he

/-! ## Filling a slot -/

theorem update_slot {low n : Nat} (s : Slot T) (hk : low ≤ k)
    (hk' : k < low + capacity) (hn : low ≤ n) (hn' : n < low + capacity) (hne : n ≠ k) :
    update slots (k % capacity) s (n % capacity) = slots (n % capacity) :=
  update_of_ne (fun heq => hne (eq_of_window hn hn' hk hk' heq)) s slots

theorem succ_mod_word_ne (n : Nat) : (n + 1) % word ≠ n % word := by
  simp only [word]
  omega

theorem Owns.ticket_ne {slots' : Nat → Slot T} {pos' k' : Nat} {v' : T} (hne : t' ≠ t)
    (h : Owns slots log freed returned t pos v k)
    (h' : Owns slots' log freed returned t' pos' v' k') : k' ≠ k := by
  rintro rfl
  have hmine := h.mine.symm.trans h'.mine
  simp only [Option.some.injEq, Prod.mk.injEq] at hmine
  exact hne hmine.1.symm

theorem PushOk.update_slot (s : Slot T) (hroom : log.length ≤ freed + capacity) (hne : t' ≠ t)
    (howns : Owns slots log freed returned t pos v k)
    (h : PushOk slots log freed returned t' push) :
    PushOk (update slots (k % capacity) s) log freed returned t' push := by
  have hk := (List.getElem?_eq_some_iff.mp howns.mine).1
  have hslot : ∀ {pos' v' k'}, Owns slots log freed returned t' pos' v' k' →
      update slots (k % capacity) s (k' % capacity) = slots (k' % capacity) := fun h' =>
    Pending.update_slot s howns.live (by omega) h'.live
      (by have := (List.getElem?_eq_some_iff.mp h'.mine).1; omega) (howns.ticket_ne hne h')
  cases push <;> simp only [PushOk] at h ⊢
  case loaded => exact h
  case checked => exact h
  case claimed => exact { h with seq := by rw [hslot h]; exact h.seq }
  case written =>
    exact ⟨{ h.1 with seq := by rw [hslot h.1]; exact h.1.seq }, by rw [hslot h.1]; exact h.2⟩

theorem PushOk.append_returned (hne : t' ≠ t)
    (h : PushOk slots log freed returned t' push) (e : Nat × T) :
    PushOk slots log freed (returned ++ [(t, e)]) t' push := by
  have howns : ∀ {pos v ticket}, Owns slots log freed returned t' pos v ticket →
      Owns slots log freed (returned ++ [(t, e)]) t' pos v ticket := fun h =>
    { h with
      last := fun e' he' hthread => by
        rcases mem_append.mp he' with he' | he'
        · exact h.last e' he' hthread
        · rw [mem_singleton.mp he'] at hthread
          exact absurd hthread.symm hne }
  cases push <;> simp only [PushOk] at h ⊢
  case loaded => exact h
  case checked => exact h
  case claimed => exact howns h
  case written => exact ⟨howns h.1, h.2⟩

theorem DrainOk.of_seq {slots' : Nat → Slot T} {drain : Drain T}
    (h : DrainOk slots log freed handed due drain)
    (hseq : (slots (freed % capacity)).seq = (freed + 1) % word →
      (slots' (freed % capacity)).seq = (freed + 1) % word) :
    DrainOk slots' log freed handed due drain := by
  cases drain <;> simp only [DrainOk] at h ⊢
  case idle => exact h
  case ended => exact h
  case looking => exact h
  case filled => exact ⟨h.1, h.2.1, h.2.2.1, hseq h.2.2.2⟩
  case read => exact ⟨h.1, h.2.1, h.2.2.1, hseq h.2.2.2.1, h.2.2.2.2⟩
  case stored => exact h

theorem SlotsOk.update {pushes : Nat → Push T} {s : Slot T} (h : SlotsOk slots pushes log freed)
    (hroom : log.length ≤ freed + capacity) (hlive : freed ≤ k) (hmine : log[k]? = some (t, v))
    (hholds : ∀ n, Holds (pushes t) n → n = k)
    (hs : (s.seq = k % word ∧ Holds push k) ∨ (s.seq = (k + 1) % word ∧ s.value = some v)) :
    SlotsOk (update slots (k % capacity) s) (update pushes t push) log freed := by
  have hk := (List.getElem?_eq_some_iff.mp hmine).1
  refine ⟨fun n hn hn' => ?_, fun n t' v' hn hlog => ?_⟩
  · rw [update_slot s hlive (by omega) (by omega) hn' (by omega)]
    exact h.free n hn hn'
  · have hn' := (List.getElem?_eq_some_iff.mp hlog).1
    by_cases hnk : n = k
    · subst hnk
      rw [hmine] at hlog
      cases hlog
      simpa only [update_self] using hs
    · rw [update_slot s hlive (by omega) hn (by omega) hnk]
      rcases h.used n t' v' hn hlog with ⟨hseq, hholds'⟩ | hfilled
      · have hne : t' ≠ t := by
          rintro rfl
          exact hnk (hholds n hholds')
        exact .inl ⟨hseq, by rwa [update_of_ne hne]⟩
      · exact .inr hfilled

theorem Inv.write (h : p.Inv) (hpush : p.pushes t = .claimed pos v k) :
    ((p.setSlot pos ⟨(p.slot pos).seq, some v⟩).setPush t (.written pos v k)).Inv := by
  have howns : Owns p.slots p.log p.freed p.returned t pos v k := by
    have hok := h.pushes t
    rwa [hpush] at hok
  have hindex : pos % capacity = k % capacity := by rw [howns.pos, mod_word_mod_capacity]
  have hseq : (p.slot pos).seq = k % word := by
    rw [slot, hindex]
    exact howns.seq
  refine { h with slots := ?_, pushes := fun t' => ?_, drain := ?_ }
  · simp only [Pending.setPush, setSlot, hindex]
    refine h.slots.update h.room howns.live howns.mine (fun n hn => ?_) (.inl ⟨hseq, rfl⟩)
    rw [hpush] at hn
    exact hn.symm
  · simp only [Pending.setPush, setSlot, hindex]
    by_cases ht : t' = t
    · subst ht
      simp only [update_self, PushOk]
      exact ⟨{ howns with seq := by rw [update_self]; exact hseq }, trivial⟩
    · rw [update_of_ne ht]
      exact (h.pushes t').update_slot _ h.room ht howns
  · simp only [Pending.setPush, setSlot, hindex]
    refine h.drain.of_seq fun hfilled => ?_
    by_cases hk : p.freed % capacity = k % capacity
    · rw [hk, update_self]
      rw [hk, howns.seq] at hfilled
      exact hseq.trans hfilled
    · rwa [update_of_ne hk]

theorem Inv.publish (h : p.Inv) (hpush : p.pushes t = .written pos v k) :
    ({ (p.setSlot pos ⟨wrappingAdd pos 1, (p.slot pos).value⟩).setPush t .idle with
        returned := p.returned ++ [(t, k, v)] } : Pending T).Inv := by
  obtain ⟨howns, hvalue⟩ : Owns p.slots p.log p.freed p.returned t pos v k
      ∧ (p.slots (k % capacity)).value = some v := by
    have hok := h.pushes t
    rwa [hpush] at hok
  have hindex : pos % capacity = k % capacity := by rw [howns.pos, mod_word_mod_capacity]
  have hseq : wrappingAdd pos 1 = (k + 1) % word := by rw [howns.pos, wrappingAdd_mod]
  have hslot : (p.slot pos).value = some v := by rw [slot, hindex, hvalue]
  refine { h with slots := ?_, pushes := fun t' => ?_, drain := ?_, returned := ?_, order := ?_ }
  · simp only [Pending.setPush, setSlot, hindex]
    refine h.slots.update h.room howns.live howns.mine (fun n hn => ?_) (.inr ⟨hseq, hslot⟩)
    rw [hpush] at hn
    exact hn.symm
  · simp only [Pending.setPush, setSlot, hindex]
    by_cases ht : t' = t
    · subst ht
      rw [update_self]
      trivial
    · rw [update_of_ne ht]
      exact PushOk.append_returned ht ((h.pushes t').update_slot _ h.room ht howns) (k, v)
  · simp only [Pending.setPush, setSlot, hindex]
    refine h.drain.of_seq fun hfilled => ?_
    by_cases hk : p.freed % capacity = k % capacity
    · -- the slot the drain found filled is not the one being published
      rw [hk, howns.seq] at hfilled
      have hfreed : p.freed = k := by
        have hlt := (List.getElem?_eq_some_iff.mp howns.mine).1
        have hroom := h.room
        exact eq_of_window (Nat.le_refl _) (by simp only [capacity]; omega) howns.live
          (by omega) hk
      rw [hfreed] at hfilled
      exact absurd hfilled.symm (succ_mod_word_ne k)
    · rwa [update_of_ne hk]
  · intro e he
    rcases mem_append.mp he with he | he
    · exact h.returned e he
    · rw [mem_singleton.mp he]
      exact howns.mine
  · rw [pairwise_append]
    refine ⟨h.order, pairwise_singleton _ _, fun e he e' he' hthread => ?_⟩
    rw [mem_singleton.mp he'] at hthread ⊢
    exact howns.last e he hthread

/-! ## The steps -/

/-- How many tickets were claimed when the position was read that the push is about to use. -/
def seen? : Push T → Option Nat
  | .loaded _ _ seen => some seen
  | .checked _ _ seen => some seen
  | _ => none

/-- No push acts on a position so old that its word no longer tells it from newer ones. -/
def Fresh (p : Pending T) : Act T → Prop
  | .access t _ => ∀ seen ∈ seen? (p.pushes t), p.claimed + capacity < seen + word / 2
  | _ => True

instance (p : Pending T) : DecidablePred p.Fresh
  | .access .. => inferInstanceAs (Decidable (∀ _ ∈ _, _))
  | .push .. | .drain => .isTrue trivial

section

variable (h : p.Inv)
include h

theorem Inv.exists_seq (n : Nat) :
    ∃ m q, p.freed ≤ m ∧ m < p.freed + capacity ∧ m % capacity = n % capacity
      ∧ (q = m ∨ q = m + 1) ∧ (p.slots (n % capacity)).seq = q % word := by
  obtain ⟨m, hm, hm', hslot⟩ := exists_window p.freed n
  rw [← hslot]
  rcases Nat.lt_or_ge m p.log.length with hlt | hge
  · rcases h.slots.used m _ _ hm (List.getElem?_eq_getElem hlt) with ⟨hseq, -⟩ | ⟨hseq, -⟩
    · exact ⟨m, m, hm, hm', rfl, .inl rfl, hseq⟩
    · exact ⟨m, m + 1, hm, hm', rfl, .inr rfl, hseq⟩
  · exact ⟨m, m, hm, hm', rfl, .inl rfl, h.slots.free m hge hm'⟩

theorem Inv.stepPush {spurious : Bool}
    (hfresh : p.Fresh (.access t spurious)) : (p.stepPush t spurious).Inv := by
  have hok := h.pushes t
  unfold Pending.stepPush
  simp only [Fresh] at hfresh
  cases hpush : p.pushes t <;> simp only [hpush, PushOk, seen?] at hok hfresh ⊢
  case idle => exact h
  case reload value => exact h.loadTail value (by simp [hpush, Holds])
  case loaded pos value seen =>
    obtain ⟨m, q, hm, hm', hslot, hq, hseq⟩ := h.exists_seq seen
    have hbelow := h.below
    have hroom := h.room
    have hsign : wrappingSign (p.slot pos).seq pos
        = if q = seen then .eq else if seen < q then .gt else .lt := by
      rw [slot, hok.1, mod_word_mod_capacity, hseq]
      have hfresh := hfresh seen rfl
      exact wrappingSign_mod (by omega) (by simp only [claimed] at hfresh; omega)
    rw [hsign]
    have hold : ∀ n, ¬ Holds (p.pushes t) n := by simp [hpush, Holds]
    split_ifs with heq hlt
    · -- the slot is free for the ticket read
      refine h.setPush hold ⟨hok.1, hok.2, ?_⟩
      simp only [capacity] at *
      omega
    · exact h.setPush hold trivial
    · -- the slot still serves the ticket one round back
      have hfull : p.outstanding = capacity := by
        simp only [outstanding, claimed, capacity] at *
        omega
      have hset : (p.setPush t .idle).Inv := h.setPush hold trivial
      refine { hset with refusals := fun n hn => ?_ }
      rcases mem_append.mp hn with hn | hn
      · exact h.refusals n hn
      · rw [mem_singleton.mp hn, hfull]
  case checked pos value seen =>
    have hold : ∀ n, ¬ Holds (p.pushes t) n := by simp [hpush, Holds]
    split
    · next hcas =>
      have hseen : seen = p.log.length := by
        refine mod_word_inj ?_ hok.2.1 ?_
        · rw [← hok.1, ← hcas.1, h.tail]
        · have hfresh := hfresh seen rfl
          simp only [claimed, word] at hfresh ⊢
          omega
      subst hseen
      exact h.claim hold hok.1 hok.2.2
    · exact h.loadTail value hold
  case claimed pos value ticket => exact h.write hpush
  case written pos value ticket => exact h.publish hpush

theorem Inv.giveBack {value : Option T} (hdrain : p.drain = .read pos stop goal value) :
    ({ p.setSlot pos ⟨wrappingAdd pos capacity, (p.slot pos).value⟩ with
        freed := p.freed + 1
        drain := .stored pos stop goal value } : Pending T).Inv := by
  obtain ⟨hpos, hbetween, hlt, hseq, hvalue⟩ : pos = p.freed % word
      ∧ Between p.log p.freed p.out.length p.due stop goal ∧ p.freed < goal
      ∧ (p.slots (p.freed % capacity)).seq = (p.freed + 1) % word
      ∧ value = p.log[p.freed]?.map (·.2) := by
    have hok := h.drain
    rwa [hdrain] at hok
  have hindex : pos % capacity = p.freed % capacity := by rw [hpos, mod_word_mod_capacity]
  have hnext : wrappingAdd pos capacity = (p.freed + capacity) % word := by
    rw [hpos, wrappingAdd_mod]
  have hlen := Nat.lt_of_lt_of_le hlt hbetween.goal_le
  have hroom := h.room
  -- the slots of later tickets are other slots
  have hother : ∀ n, p.freed < n → n < p.freed + capacity →
      update p.slots (p.freed % capacity)
        ⟨wrappingAdd pos capacity, (p.slot pos).value⟩ (n % capacity) = p.slots (n % capacity) :=
    fun n hn hn' => update_slot _ (Nat.le_refl _) (by omega) (by omega) hn' (by omega)
  -- and no push holds the ticket, which is published
  have hpublished : ∀ {t pos' v k}, Owns p.slots p.log p.freed p.returned t pos' v k →
      p.freed < k ∧ k < p.freed + capacity := by
    intro t pos' v k howns
    have hk := (List.getElem?_eq_some_iff.mp howns.mine).1
    have hlive := howns.live
    have hne : p.freed ≠ k := by
      rintro rfl
      exact succ_mod_word_ne p.freed (hseq.symm.trans howns.seq)
    omega
  refine ⟨h.tail, h.head, ?_, ?_, ⟨?_, ?_⟩, fun t => ?_, ?_, h.out, h.returned, h.order, h.refusals⟩
  · show p.freed + 1 ≤ p.log.length
    omega
  · show p.log.length ≤ p.freed + 1 + capacity
    omega
  · intro n hn hn'
    simp only [setSlot, hindex] at hn hn' ⊢
    by_cases hlast : n = p.freed + capacity
    · subst hlast
      rw [Nat.add_mod_right, update_self]
      exact hnext
    · rw [hother n (by omega) (by omega)]
      exact h.slots.free n hn (by omega)
  · intro n t v hn hlog
    simp only [setSlot, hindex] at hn hlog ⊢
    have hn' := (List.getElem?_eq_some_iff.mp hlog).1
    rw [hother n (by omega) (by omega)]
    exact h.slots.used n t v (by omega) hlog
  · have hok := h.pushes t
    simp only [setSlot, hindex]
    have howns : ∀ {pos' v k}, Owns p.slots p.log p.freed p.returned t pos' v k →
        Owns (update p.slots (p.freed % capacity)
          ⟨wrappingAdd pos capacity, (p.slot pos).value⟩) p.log (p.freed + 1)
            p.returned t pos' v k :=
      fun ho => ⟨ho.pos, (hpublished ho).1, ho.mine,
        by rw [hother _ (hpublished ho).1 (hpublished ho).2]; exact ho.seq, ho.last⟩
    cases hpush : p.pushes t <;> simp only [hpush, PushOk] at hok ⊢
    case loaded => exact hok
    case checked => exact ⟨hok.1, hok.2.1, by omega⟩
    case claimed => exact howns hok
    case written =>
      refine ⟨howns hok.1, ?_⟩
      rw [hother _ (hpublished hok.1).1 (hpublished hok.1).2]
      exact hok.2
  · show pos = p.out.length % word ∧ Between p.log (p.freed + 1) (p.out.length + 1) p.due stop goal
      ∧ value = p.log[p.out.length]?.map (·.2)
    rw [← hbetween.freed_eq]
    exact ⟨hpos, { hbetween with freed_eq := rfl, freed_le := hlt }, hvalue⟩

theorem Inv.stepDrain : p.stepDrain.Inv := by
  have hok := h.drain
  unfold Pending.stepDrain
  cases hdrain : p.drain <;> simp only [hdrain, DrainOk] at hok ⊢
  case idle =>
    have hended : Between p.log p.freed p.out.length (p.returned.map (·.2.1)) p.tail p.claimed :=
      { stop_eq := h.tail
        freed_eq := hok.1
        freed_le := h.below
        goal_le := Nat.le_refl _
        due_lt := fun k hk => by
          obtain ⟨e, he, rfl⟩ := mem_map.mp hk
          exact (List.getElem?_eq_some_iff.mp (h.returned e he)).1 }
    exact { h with drain := hended }
  case ended stop goal =>
    have hlooking : p.head = p.freed % word ∧ Between p.log p.freed p.out.length p.due stop goal :=
      ⟨by rw [hok.freed_eq]; exact h.head, hok⟩
    exact { h with drain := hlooking }
  case looking pos stop goal =>
    obtain ⟨hpos, hbetween⟩ := hok
    have hroom := h.room
    split
    · next hstop =>
      -- at the position the drain set out for
      have hgoal : p.freed = goal := by
        refine mod_word_inj (by rw [← hpos, hstop, hbetween.stop_eq]) hbetween.freed_le ?_
        have := hbetween.goal_le
        simp only [capacity, word] at hroom ⊢
        omega
      have hidle : p.freed = p.out.length ∧ ∀ k ∈ p.due, k < p.freed :=
        ⟨hbetween.freed_eq, fun k hk => by rw [hgoal]; exact hbetween.due_lt k hk⟩
      exact { h with drain := hidle }
    · next hmore =>
      split
      · next hseq =>
        have hne : p.freed ≠ goal := by
          rintro heq
          exact hmore (by rw [hpos, hbetween.stop_eq, heq])
        have hseq' : (p.slots (p.freed % capacity)).seq = (p.freed + 1) % word := by
          rw [slot, hpos, mod_word_mod_capacity, wrappingAdd_mod] at hseq
          exact hseq
        have hle := hbetween.freed_le
        have hfilled : pos = p.freed % word ∧ Between p.log p.freed p.out.length p.due stop goal
            ∧ p.freed < goal ∧ (p.slots (p.freed % capacity)).seq = (p.freed + 1) % word :=
          ⟨hpos, hbetween, by omega, hseq'⟩
        exact { h with drain := hfilled }
      · exact h
  case filled pos stop goal =>
    obtain ⟨hpos, hbetween, hlt, hseq⟩ := hok
    have hlen := Nat.lt_of_lt_of_le hlt hbetween.goal_le
    have hvalue : (p.slot pos).value = p.log[p.freed]?.map (·.2) := by
      rw [slot, hpos, mod_word_mod_capacity]
      have hget := List.getElem?_eq_getElem hlen
      rcases h.slots.used p.freed _ _ (Nat.le_refl _) hget with ⟨hunfilled, -⟩ | ⟨-, hvalue⟩
      · exact absurd (hseq.symm.trans hunfilled) (succ_mod_word_ne _)
      · rw [hvalue, hget]
        rfl
    have hread : DrainOk p.slots p.log p.freed p.out.length p.due
        (.read pos stop goal (p.slot pos).value) := ⟨hpos, hbetween, hlt, hseq, hvalue⟩
    exact { h with drain := hread }
  case read pos stop goal value => exact h.giveBack hdrain
  case stored pos stop goal value =>
    obtain ⟨hpos, hbetween, hvalue⟩ := hok
    have hhead : wrappingAdd pos 1 = (p.out.length + 1) % word := by rw [hpos, wrappingAdd_mod]
    have hlen : (p.out ++ [value]).length = p.out.length + 1 := by simp
    have hlt : p.out.length < p.log.length := by
      have := hbetween.freed_eq
      have := h.below
      omega
    refine { h with head := ?_, drain := ?_, out := ?_ }
    · rw [hlen, hhead]
    · exact ⟨by rw [hhead, hbetween.freed_eq], by rw [hlen]; exact hbetween⟩
    · rw [hlen, take_add_one, map_append, ← h.out, hvalue, List.getElem?_eq_getElem hlt]
      rfl

theorem Inv.step {a : Act T} (hfresh : p.Fresh a) : (p.step a).Inv := by
  cases a with
  | push t value =>
    simp only [Pending.step]
    split
    · next hidle => exact h.loadTail value (by simp [hidle, Holds])
    · exact h
  | access t spurious => exact h.stepPush hfresh
  | drain => exact h.stepDrain

/-! ## A drain comes to its end -/

theorem Inv.waiting (hdrain : p.drain = .looking pos stop goal) (hmore : pos ≠ stop)
    (hseq : (p.slot pos).seq ≠ wrappingAdd pos 1) : ∃ t, Holds (p.pushes t) p.out.length := by
  obtain ⟨hpos, hbetween⟩ : pos = p.freed % word
      ∧ Between p.log p.freed p.out.length p.due stop goal := by
    have hok := h.drain
    rwa [hdrain] at hok
  have hne : p.freed ≠ goal := by
    rintro heq
    exact hmore (by rw [hpos, hbetween.stop_eq, heq])
  have hlt : p.freed < p.log.length := by
    have := hbetween.freed_le
    have := hbetween.goal_le
    omega
  rw [slot, hpos, mod_word_mod_capacity, wrappingAdd_mod] at hseq
  rcases h.slots.used p.freed _ _ (Nat.le_refl _) (List.getElem?_eq_getElem hlt) with
    ⟨-, hholds⟩ | ⟨hfilled, -⟩
  · exact ⟨_, by rw [← hbetween.freed_eq]; exact hholds⟩
  · exact absurd hfilled hseq

end

theorem stepDrain_pushes (p : Pending T) : p.stepDrain.pushes = p.pushes := by
  unfold Pending.stepDrain
  split
  · rfl
  · rfl
  · split
    · rfl
    · split <;> rfl
  · rfl
  · rfl
  · rfl

def toGo (p : Pending T) : Nat :=
  match p.drain with
  | .idle => 0
  | .ended _ goal => 4 * (goal - p.freed) + 2
  | .looking _ _ goal => 4 * (goal - p.freed) + 1
  | .filled _ _ goal => 4 * (goal - p.freed)
  | .read _ _ goal _ => 4 * (goal - p.freed) - 1
  | .stored _ _ goal _ => 4 * (goal - p.freed) + 2

theorem Inv.toGo_stepDrain (h : p.Inv) (hquiet : ∀ t n, ¬ Holds (p.pushes t) n)
    (hbusy : p.drain ≠ .idle) : p.stepDrain.toGo < p.toGo := by
  have hok := h.drain
  cases hdrain : p.drain <;> simp only [hdrain, DrainOk, toGo, Pending.stepDrain] at hok ⊢
  case idle => exact absurd hdrain hbusy
  case ended => omega
  case looking pos stop goal =>
    by_cases hstop : pos = stop
    · simp only [if_pos hstop]
      exact Nat.succ_pos _
    by_cases hseq : (p.slot pos).seq = wrappingAdd pos 1
    · simp only [if_neg hstop, if_pos hseq]
      exact Nat.lt_succ_self _
    · obtain ⟨t, hholds⟩ := h.waiting hdrain hstop hseq
      exact absurd hholds (hquiet t _)
  case filled =>
    have := hok.2.2.1
    omega
  case read =>
    have := hok.2.2.1
    omega
  case stored => omega

/-- **A drain comes to its end** by its own steps, once no push is between its claim and its
publication. -/
theorem Inv.drain_finishes (h : p.Inv)
    (hquiet : ∀ t n, ¬ Holds (p.pushes t) n) : ∃ n, (Pending.stepDrain^[n] p).drain = .idle := by
  induction hleft : p.toGo using Nat.strong_induction_on generalizing p with
  | _ left ih =>
    by_cases hidle : p.drain = .idle
    · exact ⟨0, hidle⟩
    · obtain ⟨n, hn⟩ := ih _ (hleft ▸ h.toGo_stepDrain hquiet hidle) h.stepDrain
        (by simpa only [stepDrain_pushes] using hquiet) rfl
      exact ⟨n + 1, hn⟩

/-! ## The claims of the ring -/

structure Ordered (p : Pending T) : Prop where
  /-- What is handed out is the tickets' values, each once and in ticket order. -/
  out : p.out = (p.log.take p.out.length).map fun e => some e.2
  /-- A push that returned `true` has a ticket of its own, with its value. -/
  returned : ∀ e ∈ p.returned, p.log[e.2.1]? = some (e.1, e.2.2)
  distinct : (p.returned.map (·.2.1)).Nodup
  /-- The tickets of one thread are in program order. -/
  program : p.returned.Pairwise fun a b => a.1 = b.1 → a.2.1 < b.2.1
  /-- A drain that returned has handed out every push that had returned before it began. -/
  drained : p.drain = .idle → ∀ k ∈ p.due, k < p.out.length
  /-- A push returned `false` only at a full ring. -/
  refused : ∀ n ∈ p.refusals, n = capacity
  /-- A drain waits for nothing but a push that has claimed and not published. -/
  finishes : (∀ t n, ¬ Holds (p.pushes t) n) → ∃ n, (Pending.stepDrain^[n] p).drain = .idle

theorem Inv.ordered (h : p.Inv) : p.Ordered where
  out := h.out
  returned := h.returned
  distinct := by
    rw [List.Nodup, pairwise_map]
    refine h.order.imp_of_mem fun {a b} ha hb hlt heq => ?_
    -- one ticket has one thread
    have hsame := (h.returned a ha).symm.trans (heq ▸ h.returned b hb)
    simp only [Option.some.injEq, Prod.mk.injEq] at hsame
    exact Nat.ne_of_lt (hlt hsame.1) heq
  program := h.order
  drained hidle := by
    have hok := h.drain
    rw [hidle] at hok
    intro k hk
    rw [← hok.1]
    exact hok.2 k hk
  refused := h.refusals
  finishes := h.drain_finishes

/-- **The ring keeps its order.** In every interleaving in which no push acts on a position that is
half the numbers of a word old. -/
theorem ring_order (as : List (Act T)) (h : Runs.Along step Fresh (new : Pending T) as) :
    Runs.Always step Ordered (new : Pending T) as := by
  have hstep : ∀ (p : Pending T) a, p.Inv → p.Fresh a → (p.step a).Inv :=
    fun p a hp ha => hp.step ha
  exact (Runs.always_of_along hstep inv_new h).imp fun p hp => hp.ordered

/-- Two threads push, the second overtaking the first between its check and its claim. -/
theorem ring_order_two : Runs.Always step Ordered (new : Pending Nat)
      [.push 0 7, .access 0 false, .push 1 8, .access 1 false, .access 1 false, .access 0 false,
        .access 1 false, .access 1 false, .drain, .drain, .drain, .drain, .drain, .drain, .drain] :=
  ring_order _ (by decide)

/-! ## A push that sleeps too long -/

def round : List (Act Unit) :=
  [.push 1 (), .access 1 false, .access 1 false, .access 1 false, .access 1 false,
    .drain, .drain, .drain, .drain, .drain, .drain, .drain]

/-- Thread 0 has read position 0 and sleeps since. -/
structure Asleep (p : Pending Unit) (claimed freed : Nat) (push : Push Unit)
    (drain : Drain Unit) : Prop where
  inv : p.Inv
  claimed_eq : p.log.length = claimed
  freed_eq : p.freed = freed
  sleeper : p.pushes 0 = .loaded 0 () 0
  push_eq : p.pushes 1 = push
  drain_eq : p.drain = drain

namespace Asleep

variable {p : Pending Unit} {n : Nat} {drain : Drain Unit} {push : Push Unit}

theorem call (h : p.Asleep n n .idle drain) :
    (p.step (.push 1 ())).Asleep n n (.loaded (n % word) () n) drain := by
  have hstep : p.step (.push 1 ()) = p.loadTail 1 () := by simp only [step, h.push_eq]
  refine ⟨h.inv.step trivial, ?_, ?_, ?_, ?_, ?_⟩ <;> rw [hstep]
  · exact h.claimed_eq
  · exact h.freed_eq
  · exact h.sleeper
  · simp only [loadTail, setPush, update_self, h.inv.tail, claimed, h.claimed_eq]
  · exact h.drain_eq

theorem check (h : p.Asleep n n (.loaded (n % word) () n) drain) :
    (p.step (.access 1 false)).Asleep n n (.checked (n % word) () n) drain := by
  have hfresh : p.Fresh (.access 1 false) := by
    simp only [Fresh, h.push_eq, seen?, claimed, h.claimed_eq, Option.mem_def]
    rintro _ ⟨⟩
    simp only [word, capacity]
    omega
  have hseq : (p.slot (n % word)).seq = n % word := by
    rw [slot, mod_word_mod_capacity]
    refine h.inv.slots.free n h.claimed_eq.le ?_
    rw [h.freed_eq]
    simp only [capacity]
    omega
  have hsign : wrappingSign (n % word) (n % word) = .eq := by
    rw [wrappingSign_mod (Nat.le_add_right _ _) (by simp only [word]; omega), if_pos rfl]
  have hstep : p.step (.access 1 false) = p.setPush 1 (.checked (n % word) () n) := by
    simp only [step, stepPush, h.push_eq, hseq, hsign]
  refine ⟨h.inv.step hfresh, ?_, ?_, ?_, ?_, ?_⟩ <;> rw [hstep]
  · exact h.claimed_eq
  · exact h.freed_eq
  · exact h.sleeper
  · simp only [setPush, update_self]
  · exact h.drain_eq

theorem claim (h : p.Asleep n n (.checked (n % word) () n) drain) :
    (p.step (.access 1 false)).Asleep (n + 1) n (.claimed (n % word) () n) drain := by
  have hfresh : p.Fresh (.access 1 false) := by
    simp only [Fresh, h.push_eq, seen?, claimed, h.claimed_eq, Option.mem_def]
    rintro _ ⟨⟩
    simp only [word, capacity]
    omega
  have htail : p.tail = n % word := by rw [h.inv.tail, h.claimed_eq]
  have hstep : p.step (.access 1 false) = { p.setPush 1 (.claimed (n % word) () p.claimed) with
      tail := wrappingAdd (n % word) 1, log := p.log ++ [(1, ())] } := by
    simp only [step, stepPush, h.push_eq, htail, and_self, if_true]
  refine ⟨h.inv.step hfresh, ?_, ?_, ?_, ?_, ?_⟩ <;> rw [hstep]
  · simp only [length_append, length_singleton, h.claimed_eq]
  · exact h.freed_eq
  · exact h.sleeper
  · simp only [setPush, update_self, claimed, h.claimed_eq]
  · exact h.drain_eq

theorem publish (h : p.Asleep (n + 1) n (.claimed (n % word) () n) .idle) :
    ((p.step (.access 1 false)).step (.access 1 false)).Asleep (n + 1) n .idle .idle
      ∧ (((p.step (.access 1 false)).step (.access 1 false)).slots (n % capacity)).seq
          = (n + 1) % word := by
  have hstep : p.step (.access 1 false)
      = (p.setSlot (n % word) ⟨(p.slot (n % word)).seq, some ()⟩).setPush 1
          (.written (n % word) () n) := by
    simp only [step, stepPush, h.push_eq]
  have hfresh : p.Fresh (.access 1 false) := by simp [Fresh, h.push_eq, seen?]
  have hinv := h.inv.step hfresh
  have hpush : (p.step (.access 1 false)).pushes 1 = .written (n % word) () n := by
    rw [hstep]
    simp only [setPush, update_self]
  have hfresh' : (p.step (.access 1 false)).Fresh (.access 1 false) := by
    simp [Fresh, hpush, seen?]
  have hstep' : (p.step (.access 1 false)).step (.access 1 false)
      = { ((p.step (.access 1 false)).setSlot (n % word) ⟨wrappingAdd (n % word) 1,
          ((p.step (.access 1 false)).slot (n % word)).value⟩).setPush 1 .idle with
        returned := (p.step (.access 1 false)).returned ++ [(1, n, ())] } := by
    rw [step, stepPush, hpush]
  refine ⟨⟨hinv.step hfresh', ?_, ?_, ?_, ?_, ?_⟩, ?_⟩ <;> rw [hstep']
  · rw [hstep]
    exact h.claimed_eq
  · rw [hstep]
    exact h.freed_eq
  · rw [hstep]
    exact h.sleeper
  · simp only [setPush, update_self]
  · rw [hstep]
    exact h.drain_eq
  · simp only [setPush, setSlot, mod_word_mod_capacity, update_self, wrappingAdd_mod]

theorem drained (h : p.Asleep (n + 1) n .idle .idle)
    (hseq : (p.slots (n % capacity)).seq = (n + 1) % word) :
    ((List.replicate 7 (Act.drain : Act Unit)).foldl step p).Asleep (n + 1)
      (n + 1) .idle .idle := by
  have hhanded : p.freed = p.out.length := by
    have hok := h.inv.drain
    rw [h.drain_eq] at hok
    exact hok.1
  have htail : p.tail = (n + 1) % word := by rw [h.inv.tail, h.claimed_eq]
  have hhead : p.head = n % word := by rw [h.inv.head, ← hhanded, h.freed_eq]
  have hne : n % word ≠ (n + 1) % word := (succ_mod_word_ne n).symm
  have hsteps : (List.replicate 7 (Act.drain : Act Unit)).foldl step p
      = p.stepDrain.stepDrain.stepDrain.stepDrain.stepDrain.stepDrain.stepDrain := rfl
  have hlast : p.stepDrain.stepDrain.stepDrain.stepDrain.stepDrain.stepDrain.stepDrain
      = { p with
          slots := update p.slots (n % capacity)
            ⟨(n + capacity) % word, (p.slots (n % capacity)).value⟩
          head := (n + 1) % word
          freed := p.freed + 1
          out := p.out ++ [(p.slots (n % capacity)).value]
          drain := .idle
          due := p.returned.map (·.2.1) } := by
    simp only [stepDrain, h.drain_eq, hhead, htail, slot, mod_word_mod_capacity, hseq,
      wrappingAdd_mod, hne, if_false, if_true, setSlot]
  have hinv := h.inv.stepDrain.stepDrain.stepDrain.stepDrain.stepDrain.stepDrain.stepDrain
  rw [hsteps]
  refine ⟨hinv, ?_, ?_, ?_, ?_, ?_⟩ <;> rw [hlast]
  · exact h.claimed_eq
  · rw [h.freed_eq]
  · exact h.sleeper
  · exact h.push_eq

theorem round (h : p.Asleep n n .idle .idle) :
    (Pending.round.foldl step p).Asleep (n + 1) (n + 1) .idle .idle := by
  obtain ⟨hpublished, hseq⟩ := h.call.check.claim.publish
  exact hpublished.drained hseq

theorem rounds (h : p.Asleep n n .idle .idle) (k : Nat) :
    ((List.replicate k Pending.round).flatten.foldl step p).Asleep (n + k) (n + k) .idle .idle := by
  induction k generalizing p n with
  | zero => exact h
  | succ k ih =>
    rw [replicate_succ, flatten_cons, foldl_append,
      show n + (k + 1) = n + 1 + k by omega]
    exact ih h.round

end Asleep

/-- Thread 0 reads position 0 and sleeps for `k` rounds. -/
def staleRun (k : Nat) : List (Act Unit) :=
  .push 0 () :: ((List.replicate k round).flatten ++ [.access 0 false])

theorem stepPush_refused {seen : Nat} {spurious : Bool}
    (hpush : p.pushes t = .loaded pos v seen) (hsign : wrappingSign (p.slot pos).seq pos = .lt) :
    p.stepPush t spurious
      = { p.setPush t .idle with refusals := p.refusals ++ [p.outstanding] } := by
  simp only [stepPush, hpush, hsign]

theorem Asleep.refused {p : Pending Unit} (h : p.Asleep k k .idle .idle)
    (hslot : k % capacity = 0) (hhalf : wrappingSign (k % word) 0 = .lt) :
    ¬ (p.step (.access 0 false)).Ordered := by
  have hseq : (p.slot 0).seq = k % word := by
    have hfree := h.inv.slots.free k h.claimed_eq.le
      (by rw [h.freed_eq]; exact Nat.lt_add_of_pos_right (by decide))
    rwa [hslot] at hfree
  have hsign : wrappingSign (p.slot 0).seq 0 = .lt := by
    rw [hseq]
    exact hhalf
  intro hordered
  have hstep : p.step (.access 0 false) = p.stepPush 0 false := rfl
  rw [hstep, stepPush_refused h.sleeper hsign] at hordered
  have hrefused := hordered.refused p.outstanding
    (mem_append_right _ (mem_singleton_self _))
  rw [outstanding, claimed, h.claimed_eq, h.freed_eq, Nat.sub_self] at hrefused
  exact absurd hrefused (by decide)

/-- The sleeper of slot 0 after `k` rounds, for a `k` that reads as older than 0. -/
theorem staleRun_not_ordered (hslot : k % capacity = 0) (hhalf : wrappingSign (k % word) 0 = .lt) :
    ¬ ((staleRun k).foldl step (new : Pending Unit)).Ordered := by
  have hstart : ((new : Pending Unit).step (.push 0 ())).Asleep 0 0 .idle .idle :=
    ⟨inv_new.step trivial, rfl, rfl, rfl, rfl, rfl⟩
  have hasleep := hstart.rounds k
  rw [Nat.zero_add] at hasleep
  rw [staleRun, foldl_cons, foldl_append, foldl_cons, foldl_nil]
  exact hasleep.refused hslot hhalf

/-- **A push that sleeps through half a word** finds a sequence number that looks older than its
position, and is refused by an empty ring. -/
theorem stale_push_refused :
    ¬ ((staleRun (word / 2)).foldl step (new : Pending Unit)).Ordered :=
  staleRun_not_ordered (by decide +kernel) (by decide +kernel)

end Pending

end Snare.Wake
