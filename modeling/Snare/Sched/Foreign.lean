import Snare.Lib.Places
import Snare.Sched.Dispatch
import Snare.Sched.Stirs

/-!
# Wakes from outside

A thread outside the schedule wakes a key: who waits on it is made runnable, and if nobody does, the
key is kept and the next wait on it returns at once. A waker that finds the state held leaves its
wake in a queue that the next dispatch or wait delivers.

* **`Scheduler.events`**: what a section does about wakes from outside: those it delivers, each with
  the state it meets, and how a wait on a key came out;
* **`ForeignKeys.Holds`**: the table of kept keys as the set it stands for, exact while the keys
  fit;
* **`ForeignWake.delivered_heeded`**: exactly one thing comes of a delivery;
* **`mem_keptAfter`**: the keys kept after a log are those it says still await a wait.
-/

namespace Snare.Sched

open List

/-! ## The table of kept keys -/

namespace ForeignKeys

variable {f : ForeignKeys} {kept : Finset DetKey} {key : DetKey}

structure Holds (f : ForeignKeys) (kept : Finset DetKey) : Prop where
  places : Places f.keys kept
  length : f.keys.length = foreignKeys

theorem Holds.insert (h : f.Holds kept) (hroom : (Insert.insert key kept).card ≤ foreignKeys) :
    (f.insert key).Holds (Insert.insert key kept) := by
  have hmem : f.keys.contains (some key) ↔ key ∈ kept := by
    rw [contains_iff_mem, h.places.mem]
  simp only [ForeignKeys.insert]
  split
  · next hold => rwa [Finset.insert_eq_of_mem (hmem.mp hold)]
  next hnew =>
  have hnot : key ∉ kept := fun hkey => hnew (hmem.mpr hkey)
  rw [Finset.card_insert_of_notMem hnot] at hroom
  split
  · next free hfree =>
    obtain ⟨hlt, hnone, -⟩ := findIdx?_eq_some_iff_getElem.mp hfree
    have hget : f.keys[free]? = some none := by
      rw [getElem?_eq_getElem hlt, Option.isNone_iff_eq_none.mp hnone]
    exact ⟨h.places.put hget hnot, by rw [length_set]; exact h.length⟩
  · -- the table would be full of other keys
    next hfull =>
    have hfree := h.places.exists_free (by rw [h.length]; omega)
    rw [findIdx?_eq_none_iff] at hfull
    exact absurd (hfull none hfree) (by decide)

theorem Holds.remove (h : f.Holds kept) (key : DetKey) :
    (f.remove key).1.Holds (kept.erase key) ∧ ((f.remove key).2 ↔ key ∈ kept) := by
  simp only [ForeignKeys.remove]
  split
  · next i hi =>
    obtain ⟨hlt, heq, -⟩ := findIdx?_eq_some_iff_getElem.mp hi
    have hget : f.keys[i]? = some (some key) := by
      rw [getElem?_eq_getElem hlt, beq_iff_eq.mp heq]
    refine ⟨⟨h.places.take hget, by rw [length_set]; exact h.length⟩, fun _ => ?_, fun _ => rfl⟩
    exact (h.places.mem key).mp (mem_of_getElem? hget)
  · next hnone =>
    have hnot : key ∉ kept := by
      rw [← h.places.mem]
      intro hkey
      have := findIdx?_eq_none_iff.mp hnone _ hkey
      simp at this
    rw [Finset.erase_eq_of_notMem hnot]
    exact ⟨h, fun hfalse => absurd hfalse Bool.false_ne_true, fun hkey => absurd hkey hnot⟩

end ForeignKeys

/-! ## What a wake from outside does -/

namespace ForeignWake

def after (w : ForeignWake) (st : State) : State :=
  (st.wakeForeignLocked w.key w.n w.mask w.priv).1

/-- The wake makes a thread blocked on its key runnable, and is not kept. -/
def Rouses (w : ForeignWake) (st : State) : Prop :=
  (∃ t slot wait, st.slot t = some slot ∧ slot.blocked = some wait ∧ wait.1.key = w.key
    ∧ (w.after st).slot t = some (slot.readied .woken)) ∧ (w.after st).foreign = st.foreign

/-- The wake is kept for the next wait on its key, and leaves every thread as it is. -/
def IsKept (w : ForeignWake) (st : State) : Prop :=
  some w.key ∈ (w.after st).foreign.keys ∧ ∀ t, (w.after st).slot t = st.slot t

end ForeignWake

inductive Event where
  /-- A wake is delivered, in this state. -/
  | delivered (st : State) (w : ForeignWake)
  /-- A wait on a key comes: whether the schedule looks at it, whether what it waits for has
  changed, and whether it returns at once. -/
  | waited (key : DetKey) (looked changed atOnce : Bool)

namespace Event

def wake? : Event → Option ForeignWake
  | delivered _ w => some w
  | waited _ _ _ _ => none

def looksAt (key : DetKey) : Event → Bool
  | delivered _ _ => false
  | waited key' looked _ _ => looked && key' == key

def keep (kept : Finset DetKey) : Event → Finset DetKey
  | delivered st w =>
    if (st.wakeForeignLocked w.key w.n w.mask w.priv).2 = 0 then insert w.key kept else kept
  | waited key looked _ _ => if looked then kept.erase key else kept

/-- Exactly one thing comes of a wake, and a wait returns at once if its key is kept. -/
def Heeded (kept : Finset DetKey) : Event → Prop
  | delivered st w =>
    (w.Rouses st ∧ ¬ w.IsKept st ∨ w.IsKept st ∧ ¬ w.Rouses st)
      ∧ ((st.wakeForeignLocked w.key w.n w.mask w.priv).2 = 0 ↔ w.IsKept st)
  | waited key looked changed atOnce => atOnce ↔ (looked = false ∨ changed ∨ key ∈ kept)

end Event

/-- Some wake on the key was kept, and no wait on it has been looked at since. -/
def Awaits (log : List Event) (key : DetKey) : Prop :=
  ∃ before st w since, log = before ++ .delivered st w :: since ∧ w.key = key ∧ w.IsKept st
    ∧ ∀ e ∈ since, e.looksAt key = false

/-- The state's let-go marks and kept keys, as the log has them. -/
structure Tracks (room : Finset DetKey) (st : State) (kept : Finset DetKey) : Prop where
  unmarked : st.Unmarked
  table : st.foreign.Holds kept
  within : kept ⊆ room

variable {room kept : Finset DetKey}

theorem Tracks.frame {st st' : State} (h : Tracks room st kept)
    (hframe : Frame st st') : Tracks room st' kept :=
  ⟨hframe.unmarked h.unmarked, hframe.foreign ▸ h.table, h.within⟩

namespace ForeignWake

variable {w : ForeignWake} {st : State}

theorem not_isKept_of_rouses (h : w.Rouses st) : ¬ w.IsKept st := by
  rintro ⟨-, hsame⟩
  obtain ⟨⟨t, slot, wait, hslot, hblocked, -, hreadied⟩, -⟩ := h
  have heq : slot.readied .woken = slot :=
    Option.some.inj (hreadied.symm.trans ((hsame t).trans hslot))
  have hnone : slot.blocked = none := by
    rw [← heq]
    rfl
  cases hblocked.symm.trans hnone

theorem rouses_of_pos (h : 0 < (st.wakeForeignLocked w.key w.n w.mask w.priv).2) : w.Rouses st := by
  obtain ⟨ts, -, hlen, hfirst, hready⟩ :=
    st.wakeKeyMatching_readied w.key w.n .woken fun wait => wait.reached w.mask w.priv
  have hwoken :
      (st.wakeKeyMatching w.key w.n .woken fun wait => wait.reached w.mask w.priv).2 ≠ 0 :=
    Nat.ne_of_gt h
  have hafter : w.after st
      = (st.wakeKeyMatching w.key w.n .woken fun wait => wait.reached w.mask w.priv).1 := by
    simp only [after, State.wakeForeignLocked, hwoken, if_false]
  cases ts with
  | nil => exact absurd hlen hwoken
  | cons t ts =>
    obtain ⟨order, slot, hslot, hwaiting⟩ := hfirst.waits t mem_cons_self
    obtain ⟨wait, hwait, -⟩ := Option.map_eq_some_iff.mp hwaiting
    obtain ⟨hblocked, hkey⟩ := Option.filter_eq_some_iff.mp hwait
    simp only [Bool.and_eq_true, beq_iff_eq] at hkey
    refine ⟨⟨t, slot, wait, hslot, hblocked, hkey.1, ?_⟩, ?_⟩
    · rw [hafter, hready.slots t, if_pos mem_cons_self, hslot]
      rfl
    · rw [hafter, hready.rest]

/-- **A delivery.** One thing comes of it, and the table keeps up. -/
theorem delivered_heeded (h : Tracks room st kept)
    (hroom : room.card ≤ foreignKeys) (hkey : w.key ∈ room) : (Event.delivered st w).Heeded kept
      ∧ Tracks room (w.after st) ((Event.delivered st w).keep kept) := by
  have hstirs := Scheduler.wakeForeignLocked_stirs st w
  simp only [Event.Heeded, Event.keep]
  by_cases hzero : (st.wakeForeignLocked w.key w.n w.mask w.priv).2 = 0
  · rw [if_pos hzero]
    obtain ⟨ts, -, hlen, -, hready⟩ :=
      st.wakeKeyMatching_readied w.key w.n .woken fun wait => wait.reached w.mask w.priv
    obtain rfl : ts = [] := length_eq_zero_iff.mp (hlen.symm.trans hzero)
    have hafter : w.after st = { (st.wakeKeyMatching w.key w.n .woken
        fun wait => wait.reached w.mask w.priv).1 with foreign := st.foreign.insert w.key } := by
      have hwoken : (st.wakeKeyMatching w.key w.n .woken
          fun wait => wait.reached w.mask w.priv).2 = 0 := hzero
      simp only [after, State.wakeForeignLocked, hwoken, if_true]
      rw [hready.rest]
    have hwithin : insert w.key kept ⊆ room := Finset.insert_subset hkey h.within
    have htable : (w.after st).foreign.Holds (insert w.key kept) := by
      rw [hafter]
      exact h.table.insert ((Finset.card_le_card hwithin).trans hroom)
    have hkept : w.IsKept st := by
      refine ⟨(htable.places.mem _).mpr (Finset.mem_insert_self _ _), fun t => ?_⟩
      rw [hafter]
      exact (hready.slots t).trans (if_neg (by simp))
    exact ⟨⟨.inr ⟨hkept, fun hrouses => not_isKept_of_rouses hrouses hkept⟩,
      fun _ => hkept, fun _ => hzero⟩, hstirs.unmarked h.unmarked, htable, hwithin⟩
  · rw [if_neg hzero]
    have hrouses := rouses_of_pos (Nat.pos_of_ne_zero hzero)
    have hnot := not_isKept_of_rouses hrouses
    exact ⟨⟨.inl ⟨hrouses, hnot⟩, fun h => absurd h hzero, fun h => absurd h hnot⟩,
      hstirs.unmarked h.unmarked, hrouses.2 ▸ h.table, h.within⟩

end ForeignWake

/-! ## Logs -/

def keptAfter (kept : Finset DetKey) (log : List Event) : Finset DetKey := log.foldl Event.keep kept

def AllHeeded : Finset DetKey → List Event → Prop
  | _, [] => True
  | kept, e :: log => e.Heeded kept ∧ AllHeeded (e.keep kept) log

theorem allHeeded_append {kept : Finset DetKey} {log log' : List Event} :
    AllHeeded kept (log ++ log') ↔ AllHeeded kept log ∧ AllHeeded (keptAfter kept log) log' := by
  induction log generalizing kept with
  | nil => exact ⟨fun h => ⟨trivial, h⟩, fun h => h.2⟩
  | cons e log ih =>
    simp only [cons_append, AllHeeded, ih, and_assoc]
    rfl

theorem keptAfter_append (kept : Finset DetKey) (log log' : List Event) :
    keptAfter kept (log ++ log') = keptAfter (keptAfter kept log) log' := foldl_append

def deliveries : State → List ForeignWake → List Event
  | _, [] => []
  | st, w :: ws => .delivered st w :: deliveries (w.after st) ws

theorem deliveries_wakes (st : State) (ws : List ForeignWake) :
    (deliveries st ws).filterMap Event.wake? = ws := by
  induction ws generalizing st with
  | nil => rfl
  | cons w ws ih => simp [deliveries, Event.wake?, ih]

theorem deliveries_heeded {st : State} (h : Tracks room st kept)
    (hroom : room.card ≤ foreignKeys) {ws : List ForeignWake} (hws : ∀ w ∈ ws, w.key ∈ room) :
    AllHeeded kept (deliveries st ws)
      ∧ Tracks room (ws.foldl (fun st w => w.after st) st) (keptAfter kept (deliveries st ws)) := by
  induction ws generalizing st kept with
  | nil => exact ⟨trivial, h⟩
  | cons w ws ih =>
    obtain ⟨heeded, htracks⟩ := ForeignWake.delivered_heeded h hroom (hws w mem_cons_self)
    obtain ⟨hrest, hlast⟩ := ih htracks fun w' hw' => hws w' (mem_cons_of_mem w hw')
    exact ⟨⟨heeded, hrest⟩, hlast⟩

def Section.foreignWake : Section → Option ForeignWake
  | wakeForeign w => some w
  | queueForeign w => some w
  | _ => none

namespace Scheduler

variable {s : Scheduler}

def dispatchEvents (s : Scheduler) : List Outlook → List Event
  | [] => []
  | _ :: _ => deliveries s.toState s.foreignQueue

/-- What happens to the wakes from outside in a section. A wait that is looked at and a thread that
steps aside deliver what is queued first, so that their dispatcher finds the queue empty. -/
def events (s : Scheduler) : Section → List Event
  | .wakeForeign w => [.delivered s.lock.toState w]
  | .block me blocked mem outlooks =>
    (if s.looks me blocked.key then deliveries s.lock.toState s.lock.foreignQueue else [])
      ++ [.waited blocked.key (s.looks me blocked.key) (blocked.changedOutside mem)
        !(s.block me blocked mem outlooks).2]
  | .yieldNow me _ =>
    if s.holder = some me then deliveries (s.lock.settleRepoll me none) s.lock.foreignQueue else []
  | c => (s.dispatchFrom c).elim [] fun (s', outlooks) => s'.dispatchEvents outlooks

theorem lock_of_attached (h : s.detached = false) : s.lock = s := by
  rw [lock, h]
  rfl

theorem takeForeign_of_empty (h : s.foreignQueue = []) : s.takeForeign = s := by
  obtain ⟨st, detached, queue, letGo⟩ := s
  obtain rfl : queue = [] := h
  rfl

theorem answer_stirs (s : Scheduler) (finding : Finding) :
    ∃ st, (s.answer finding).1 = s.withState st ∧ Stirs s.toState st := by
  cases finding with
  | rest => exact ⟨s.toState, rfl, .refl _⟩
  | timerWakes mem => exact ⟨_, rfl, s.repollAddrWaiters_stirs mem⟩
  | realReady keys =>
    exact ⟨_, rfl,
      Stirs.foldl (fun st key => st.wakeReadinessKey_stirs (.keys [key])) keys s.toState⟩
  | skipped now =>
    exact ⟨_, rfl, (s.releaseDue_stirs now).trans (State.wakeReadinessKey_stirs _ _)⟩
  | stuck inStaticImage =>
    simp only [answer]
    split
    · exact ⟨s.toState, rfl, .refl _⟩
    · exact ⟨_, rfl, s.wakeKey_stirs _ _ _⟩

theorem dispatch_of_empty (hqueue : s.foreignQueue = []) (outlooks : List Outlook) :
    (s.dispatch outlooks).foreignQueue = []
      ∧ ((s.dispatch outlooks).detached = false →
        Frame s.toState (s.dispatch outlooks).toState) := by
  induction outlooks generalizing s with
  | nil => exact ⟨hqueue, fun _ => .refl _⟩
  | cons outlook rest ih =>
    simp only [dispatch, takeForeign_of_empty hqueue]
    cases hgrant : s.grantNext with
    | some st => exact ⟨hqueue, fun _ => State.grantNext_frame hgrant⟩
    | none =>
      dsimp only
      split
      · exact ⟨hqueue, fun _ => .refl _⟩
      split
      · exact ⟨hqueue, fun (hattached : true = false) => absurd hattached (by decide)⟩
      · obtain ⟨st, heq, hstirs⟩ := s.answer_stirs outlook.finding
        generalize s.answer outlook.finding = answered at heq
        obtain ⟨s', more⟩ := answered
        obtain rfl : s' = s.withState st := heq
        cases more with
        | true =>
          obtain ⟨hempty, hframe⟩ := ih (s := s.withState st) hqueue
          exact ⟨hempty, fun hattached => hstirs.toFrame.trans (hframe hattached)⟩
        | false => exact ⟨hqueue, fun _ => hstirs.toFrame⟩

theorem dispatch_takeForeign (s : Scheduler) (outlook : Outlook) (rest : List Outlook) :
    s.takeForeign.dispatch (outlook :: rest) = s.dispatch (outlook :: rest) := by
  have hsame : s.takeForeign.takeForeign = s.takeForeign := takeForeign_of_empty rfl
  simp only [dispatch, hsame]

/-- A wait that is looked at: it delivers what is queued, takes its key out of the table, and parks
unless it returns at once. -/
theorem blockHolding_spec (s : Scheduler) (me : Nat) (blocked : Blocked) (mem : Memory)
    (outlooks : List Outlook) {out : Scheduler × Bool}
    (hout : s.blockHolding me blocked mem outlooks = out) :
    out.2 = !s.atOnce blocked mem ∧ out.1.foreignQueue = []
      ∧ (out.1.detached = false → Frame { s.takeForeign.toState with
          foreign := (s.takeForeign.foreign.remove blocked.key).1 } out.1.toState) := by
  rw [blockHolding_eq] at hout
  split at hout
  · next honce =>
    subst hout
    exact ⟨by rw [honce]; rfl, rfl, fun _ => .of_eq rfl rfl⟩
  · next hparks =>
    subst hout
    have hparked : Frame { s.takeForeign.toState with
        foreign := (s.takeForeign.foreign.remove blocked.key).1 } (s.parkedIn me blocked).toState :=
      ((State.settleRepoll_stirs _ me (some blocked.key)).trans
        (.setBlocked _ me blocked)).toFrame.trans (.of_eq rfl rfl)
    -- the rounds find the queue empty
    obtain ⟨hempty, hframe⟩ := dispatch_of_empty (s := s.parkedIn me blocked) rfl outlooks
    refine ⟨?_, hempty, fun hattached => hparked.trans (hframe hattached)⟩
    rw [Bool.eq_false_iff.mpr hparks]
    rfl

end Scheduler

/-- What a section does about the wakes from outside: every event is heeded, the table keeps up
while the schedule is attached, and each wake is delivered or still queued. -/
structure Accounted (room kept : Finset DetKey) (s s' : Scheduler) (made : List ForeignWake)
    (es : List Event) : Prop where
  heeded : AllHeeded kept es
  tracks : s'.detached = false → Tracks room s'.toState (keptAfter kept es)
  wakes : (s.foreignQueue ++ made).Perm (es.filterMap Event.wake? ++ s'.foreignQueue)

namespace Accounted

variable {room kept : Finset DetKey} {s s' s'' : Scheduler}

section

variable (h : Tracks room s.toState kept)
include h

theorem frame (hframe : Frame s.toState s'.toState)
    (hqueue : s'.foreignQueue = s.foreignQueue) : Accounted room kept s s' [] [] where
  heeded := trivial
  tracks _ := h.frame hframe
  wakes := by
    rw [hqueue, append_nil]
    exact .refl _

theorem takeForeign (hroom : room.card ≤ foreignKeys)
    (hqueue : ∀ w ∈ s.foreignQueue, w.key ∈ room) :
    AllHeeded kept (deliveries s.toState s.foreignQueue)
      ∧ Tracks room s.takeForeign.toState (keptAfter kept (deliveries s.toState s.foreignQueue)) :=
  deliveries_heeded h hroom hqueue

theorem dispatch (hroom : room.card ≤ foreignKeys)
    (hqueue : ∀ w ∈ s.foreignQueue, w.key ∈ room) (outlooks : List Outlook) :
    Accounted room kept s (s.dispatch outlooks) [] (s.dispatchEvents outlooks) := by
  cases outlooks with
  | nil => exact frame h (.refl _) rfl
  | cons outlook rest =>
    obtain ⟨heeded, htracks⟩ := takeForeign h hroom hqueue
    rw [← s.dispatch_takeForeign]
    obtain ⟨hempty, hframe⟩ := Scheduler.dispatch_of_empty
        (s := s.takeForeign) rfl (outlook :: rest)
    refine ⟨heeded, fun hattached => htracks.frame (hframe hattached), ?_⟩
    rw [hempty, append_nil, append_nil, Scheduler.dispatchEvents, deliveries_wakes]

end

end Accounted

end Snare.Sched
