import Snare.Sched.Invariant

/-!
# Wakes and grants keep the invariant

* **`Quiet`**: what the wakes do, whatever they wake: they keep `Good` for any phases and holder, do
  not touch the baton, and leave alone the slot of a thread that neither waits nor has a mark;
* **`Good.grantNext`**, **`Good.handOn`**: the baton goes to a runnable thread;
* **`Good.dispatch`**: a dispatcher's rounds, `detach` included.
-/

namespace Snare.Sched

open SortedMap

/-- A slot of a thread that runs in the schedule or beside it, with nothing pending. -/
structure Slot.Free (slot : Slot) : Prop extends slot.Settled where
  blocked : slot.blocked = none

structure Quiet (st st' : State) : Prop where
  holder : st'.holder = st.holder
  good : ∀ phase holder, st.Good phase holder → st'.Good phase holder
  letGo : st'.threads.count (·.letGo) = st.threads.count (·.letGo)
  free : ∀ t slot, st.slot t = some slot → slot.Free → ∃ slot', st'.slot t = some slot' ∧ slot'.Free

namespace Quiet

theorem refl (st : State) : Quiet st st :=
  ⟨rfl, fun _ _ h => h, rfl, fun _ slot h hfree => ⟨slot, h, hfree⟩⟩

theorem trans {st₁ st₂ st₃ : State} (h₁ : Quiet st₁ st₂) (h₂ : Quiet st₂ st₃) : Quiet st₁ st₃ where
  holder := h₂.holder.trans h₁.holder
  good phase holder h := h₂.good phase holder (h₁.good phase holder h)
  letGo := h₂.letGo.trans h₁.letGo
  free t slot hslot hfree := by
    obtain ⟨slot', hslot', hfree'⟩ := h₁.free t slot hslot hfree
    exact h₂.free t slot' hslot' hfree'

theorem of_eq {st st' : State} (hholder : st'.holder = st.holder)
    (hthreads : st'.threads = st.threads) (hrunnable : st'.runnable = st.runnable)
    (hblocked : st'.blocked = st.blocked) : Quiet st st' where
  holder := hholder
  good phase holder h := by rwa [State.Good, hthreads, hrunnable, hblocked]
  letGo := by rw [hthreads]
  free t slot hslot hfree := ⟨slot, by rwa [State.slot, hthreads], hfree⟩

theorem foldl {α : Type} {f : State → α → State} (hf : ∀ st a, Quiet st (f st a)) (as : List α)
    (st : State) : Quiet st (as.foldl f st) :=
  as.foldlRecOn f (refl st) fun st' h a _ => h.trans (hf st' a)

theorem touch (st : State) (t : Nat) {f : Slot → Slot}
    (hfits : ∀ phase holds slot, Fits phase holds slot → Fits phase holds (f slot))
    (hrunnable : ∀ slot, (f slot).runnable.isSome = slot.runnable.isSome)
    (hblocked : ∀ slot, (f slot).blocked.isSome = slot.blocked.isSome)
    (hletGo : ∀ slot, (f slot).letGo = slot.letGo)
    (hfree : ∀ slot, slot.Free → (f slot).Free) : Quiet st (st.modify t f) where
  holder := rfl
  good _ _ h := h.touch (fun slot _ => hfits _ _ slot) hrunnable hblocked
  letGo := st.threads.count_modify_eq t hletGo
  free t' slot hslot hslotFree := by
    refine ⟨_, by rw [State.slot_modify, hslot, Option.map_some], ?_⟩
    split
    · exact hfree slot hslotFree
    · exact hslotFree

theorem busy {st st' : State} {t : Nat} {slot : Slot} {f : Slot → Slot}
    (hslot : st.threads.get? t = some slot) (hnot : ¬ slot.Free)
    (hthreads : st'.threads = st.threads.modify t f) (hholder : st'.holder = st.holder)
    (hgood : ∀ phase holder, st.Good phase holder → st'.Good phase holder)
    (hletGo : ∀ slot, (f slot).letGo = slot.letGo) : Quiet st st' where
  holder := hholder
  good := hgood
  letGo := by rw [hthreads, st.threads.count_modify_eq t hletGo]
  free t' slot' hslot' hfree := by
    show ∃ slot'', st'.threads.get? t' = some slot'' ∧ slot''.Free
    rw [hthreads, get?_modify]
    split
    · next heq =>
      subst heq
      have hsame : some slot = some slot' := hslot.symm.trans hslot'
      cases hsame
      exact absurd hfree hnot
    · exact ⟨slot', hslot', hfree⟩

end Quiet

namespace State

variable (st : State)

/-! ## Moving one waiter -/

theorem unblock_of_blocked {st : State} {t : Nat} {slot : Slot} {b : Blocked × Nat}
    (hslot : st.slot t = some slot) (hblocked : slot.blocked = some b) (why : DetWake) :
    st.unblock t why =
      { st with
        threads := st.threads.modify t fun slot =>
          { slot with blocked := none, runnable := some why }
        blocked := st.blocked - 1
        runnable := if slot.runnable.isNone then st.runnable + 1 else st.runnable } := by
  have hget : st.threads.get? t = some slot := hslot
  have hslot' : ({ st.modify t fun slot => { slot with blocked := none } with
      blocked := st.blocked - 1 } : State).slot t = some { slot with blocked := none } := by
    refine (st.slot_modify t _ t).trans ?_
    rw [hslot, Option.map_some, if_pos rfl]
  have htake : st.takeBlocked t = ({ st.modify t fun slot => { slot with blocked := none } with
      blocked := st.blocked - 1 }, some b.1) := by
    simp [takeBlocked, hslot, hblocked]
  simp only [unblock, htake, setRunnable, hslot']
  simp only [modify, modify_modify]
  rfl

theorem unblock_of_not_blocked {st : State} {t : Nat}
    (h : (st.slot t).bind (·.blocked) = none) (why : DetWake) : st.unblock t why = st := by
  simp [unblock, takeBlocked, h]

variable (t : Nat)

theorem unblock_quiet (why : DetWake) : Quiet st (st.unblock t why) := by
  cases hblocked : (st.slot t).bind (·.blocked) with
  | none =>
    rw [unblock_of_not_blocked hblocked]
    exact Quiet.refl st
  | some b =>
    obtain ⟨slot, hslot, hb⟩ := Option.bind_eq_some_iff.mp hblocked
    have hsome : slot.blocked.isSome := by rw [hb]; rfl
    rw [unblock_of_blocked hslot hb]
    refine Quiet.busy (f := fun slot => { slot with blocked := none, runnable := some why })
      hslot ?_
      rfl rfl ?_ fun _ => rfl
    · intro hfree
      simp [hfree.blocked] at hsome
    · intro phase holder h
      have hpos : 0 < st.blocked := by
        rw [h.blocked_eq]
        exact count_pos hslot hsome
      have hfits := h.fits t slot hslot
      refine h.modify hslot (fun _ _ => rfl) (fun _ _ => Iff.rfl) (hfits.unblock hsome why) ?_ ?_
      · simp [(hfits.waiter hsome).2.2.1]
      · simp only [hsome, Option.isSome_none, Bool.toNat_true, Bool.toNat_false]
        omega

variable (key : DetKey) (n : Nat)

theorem wakeOutsideOne_quiet (acc : State × Nat) (t : Nat) :
    Quiet acc.1 (wakeOutsideOne key n acc t).1 := by
  obtain ⟨st, woken⟩ := acc
  simp only [wakeOutsideOne]
  split
  · exact Quiet.refl st
  split
  · exact Quiet.refl st
  next slot hslot =>
    split
    · exact Quiet.refl st
    next hmark =>
      have hmark : slot.outside.isSome := by rw [not_not.mp hmark]; rfl
      refine Quiet.busy (f := fun slot => { slot with outside := none, runnable := some .woken })
        hslot ?_ rfl rfl ?_ fun _ => rfl
      · intro hfree
        simp [hfree.outside] at hmark
      · intro phase holder h
        have hfits := h.fits t slot hslot
        refine h.modify hslot (fun _ _ => rfl) (fun _ _ => Iff.rfl)
          (hfits.release hmark .woken) ?_ ?_
        · simp [(hfits.marked hmark).2.2.2.1]
        · rfl

/-! ## Waking -/

theorem unblockAll_quiet (hit : Slot → Bool) (why : DetWake) :
    Quiet st (st.unblockAll hit why) := by
  refine Quiet.foldl (fun st t => ?_) _ st
  split
  · exact st.unblock_quiet t why
  · exact Quiet.refl st

theorem unblockOldest_quiet (waiting : Slot → Option Nat) (why : DetWake) (n : Nat) :
    Quiet st (unblockOldest waiting why n st) := by
  induction n generalizing st with
  | zero => exact Quiet.refl st
  | succ n ih =>
    simp only [unblockOldest]
    split
    · exact Quiet.refl st
    · next t _ => exact (st.unblock_quiet t why).trans (ih _)

theorem wakeKeyMatching_quiet (why : DetWake) (hit : Blocked → Bool) :
    Quiet st (st.wakeKeyMatching key n why hit).1 := by
  simp only [wakeKeyMatching]
  split
  · exact st.unblockAll_quiet _ why
  · exact st.unblockOldest_quiet _ why n

theorem wakeKey_quiet (why : DetWake) : Quiet st (st.wakeKey key n why).1 :=
  st.wakeKeyMatching_quiet key n why _

theorem wakeReadinessKey_quiet (event : ReadinessWake) : Quiet st (st.wakeReadinessKey event).1 :=
  st.wakeKeyMatching_quiet _ _ _ _

theorem wakeOutside_quiet : Quiet st (st.wakeOutside key n).1 :=
  List.foldlRecOn (motive := fun acc => Quiet st acc.1) _ _ (.refl st) fun acc h t _ =>
    h.trans (wakeOutsideOne_quiet key n acc t)

theorem wakeForeignLocked_quiet (mask : UInt32) (priv : Option Bool) :
    Quiet st (st.wakeForeignLocked key n mask priv).1 := by
  have hwake := st.wakeKeyMatching_quiet key n .woken fun wait => wait.reached mask priv
  simp only [wakeForeignLocked]
  split
  · exact { hwake with }
  · exact hwake

theorem releaseDueMatching_quiet (now : Option Nat) (hit : Blocked → Bool) :
    Quiet st (st.releaseDueMatching now hit) := by
  cases now with
  | none => exact Quiet.refl st
  | some now => exact st.unblockAll_quiet _ .timedOut

theorem releaseDue_quiet (now : Option Nat) : Quiet st (st.releaseDue now) :=
  st.releaseDueMatching_quiet now _

theorem setRepolled_quiet (key : Option DetKey) :
    Quiet st (st.modify t fun slot => { slot with repolled := key }) :=
  Quiet.touch st t (fun _ _ _ h => h.repolled key) (fun _ => rfl) (fun _ => rfl) (fun _ => rfl)
    fun _ hfree => { hfree with }

theorem repoll_quiet (key : DetKey) : Quiet st (st.repoll t key) :=
  (st.unblock_quiet t .woken).trans ((st.unblock t .woken).setRepolled_quiet t (some key))

theorem repollAddrWaiters_quiet (mem : Memory) : Quiet st (st.repollAddrWaiters mem) := by
  refine Quiet.foldl (fun st t => ?_) _ st
  split
  · exact Quiet.refl st
  · exact st.repoll_quiet t _

theorem settleRepoll_quiet (blockedOn : Option DetKey) :
    Quiet st (st.settleRepoll t blockedOn) := by
  have hset := st.setRepolled_quiet t none
  simp only [settleRepoll]
  split
  · exact Quiet.refl st
  split
  · exact { hset with }
  · exact hset

theorem disown_quiet (me : Nat) : Quiet st (st.disown me).1 := by
  refine Quiet.foldl (fun st addr => ?_) _ st
  have hwake := ({ st with owners := st.owners.erase addr } : State).wakeKey_quiet (.addr addr)
    everyone .woken
  exact { hwake with }

theorem explain_quiet : Quiet st (st.explain key) := by
  let f : Slot → Slot := fun slot =>
    if slot.repolled = some key then { slot with repolled := none } else slot
  have hf : ∀ slot, (f slot).runnable = slot.runnable ∧ (f slot).blocked = slot.blocked
      ∧ (f slot).letGo = slot.letGo := by
    intro slot
    simp only [f]
    split <;> exact ⟨rfl, rfl, rfl⟩
  constructor
  case holder => rfl
  case good =>
    intro phase holder h
    refine h.map (f := f) ?_ (fun slot => by rw [(hf slot).1]) ?_
    · intro t slot _ hfits
      simp only [f]
      split
      · exact hfits.repolled none
      · exact hfits
    · simp only [(hf _).2.1]
      exact h.blocked_eq
  case letGo =>
    show (st.threads.map fun _ => f).count _ = _
    rw [count_map]
    congr 1
    funext slot
    exact (hf slot).2.2
  case free =>
    intro t slot hslot hfree
    have hget : st.threads.get? t = some slot := hslot
    refine ⟨f slot, ?_, ?_⟩
    · show (st.threads.map fun _ => f).get? t = some (f slot)
      rw [get?_map, hget, Option.map_some]
    · simp only [f]
      split
      · exact { hfree with }
      · exact hfree

theorem delegate_quiet : Quiet st st.delegate := by
  simp only [delegate]
  split
  · exact Quiet.refl st
  next t slot hfind =>
    have hget : st.threads.get? t = some slot :=
      get?_eq_some_iff.mpr (List.mem_of_find?_eq_some hfind)
    have hblocked : slot.blocked.isSome := by simpa using List.find?_some hfind
    refine Quiet.busy (f := fun slot => { slot with latch := slot.latch.or (some .dispatch) }) hget
      ?_ rfl rfl ?_ fun _ => rfl
    · intro hfree
      simp [hfree.blocked] at hblocked
    · intro phase holder h
      exact h.touch (fun slot _ hfits => hfits.delegated) (fun _ => rfl) fun _ => rfl

/-! ## Handing the baton on -/

theorem next_runnable {st : State} {t : Nat} (h : st.next = some t) :
    ∃ slot, st.threads.get? t = some slot ∧ slot.runnable.isSome := by
  simp only [next, Option.map_eq_some_iff, Option.or_eq_some_iff] at h
  obtain ⟨⟨t', slot⟩, hfind, rfl⟩ := h
  refine ⟨slot, ?_⟩
  rcases hfind with hfind | ⟨-, hfind⟩
  · have hrunnable := List.find?_some hfind
    simp only [Bool.and_eq_true] at hrunnable
    exact ⟨get?_eq_some_iff.mpr (List.mem_of_find?_eq_some hfind), hrunnable.2⟩
  · have hrunnable := List.find?_some hfind
    exact ⟨get?_eq_some_iff.mpr (List.mem_of_find?_eq_some hfind), hrunnable⟩

theorem grantNext_eq {st st' : State} (h : st.grantNext = some st') :
    ∃ t slot why, st.threads.get? t = some slot ∧ slot.runnable = some why ∧ st' =
      { st with
        threads := st.threads.modify t fun slot =>
          { slot with runnable := none, latch := some (.run why) }
        runnable := st.runnable - 1
        holder := some t
        last := t } := by
  simp only [grantNext, Option.map_eq_some_iff] at h
  obtain ⟨t, hnext, rfl⟩ := h
  obtain ⟨slot, hget, hrunnable⟩ := next_runnable hnext
  obtain ⟨why, hwhy⟩ := Option.isSome_iff_exists.mp hrunnable
  refine ⟨t, slot, why, hget, hwhy, ?_⟩
  have htake : st.takeRunnable t = ({ st.modify t fun slot => { slot with runnable := none } with
      runnable := st.runnable - 1 }, some why) := by
    have hslot : st.slot t = some slot := hget
    simp [takeRunnable, hslot, hwhy]
  simp only [htake, modify, modify_modify]
  rfl

end State

variable (st : State)

abbrev State.Held (phase : Nat → Phase) : Prop := st.Good phase st.holder

namespace Good

variable {phase : Nat → Phase} {st st' : State}

theorem grantNext (h : st.Good phase none) (hgrant : st.grantNext = some st') : st'.Held phase := by
  obtain ⟨t, slot, why, hget, hwhy, rfl⟩ := State.grantNext_eq hgrant
  have hsome : slot.runnable.isSome := by rw [hwhy]; rfl
  have hpos : 0 < st.runnable := by
    rw [h.runnable_eq]
    exact count_pos hget hsome
  refine h.modify hget (fun _ _ => rfl) ?_ ?_ ?_ ?_
  · intro t' hne
    simp [Ne.symm hne]
  · exact ((h.fits t slot hget).grant hsome why).congr (by simp)
  · simp only [hsome, Option.isSome_none, Bool.toNat_true, Bool.toNat_false]
    omega
  · rfl

theorem grantIfIdle (h : st.Held phase) : st.grantIfIdle.Held phase := by
  simp only [State.grantIfIdle]
  split
  · next hnone =>
    rw [Option.isNone_iff_eq_none] at hnone
    have hvacant : st.Good phase none := hnone ▸ h
    cases hgrant : st.grantNext with
    | none => exact h
    | some st' => exact hvacant.grantNext hgrant
  · exact h

theorem handOn (h : st.Good phase none) : st.handOn.Held phase := by
  have hvacant : ({ st with holder := none } : State).Good phase none := h
  simp only [State.handOn]
  cases hgrant : ({ st with holder := none } : State).grantNext with
  | some st' => exact hvacant.grantNext hgrant
  | none =>
    have hdelegate := ({ st with holder := none } : State).delegate_quiet
    simp only [Option.getD_none, State.Held, hdelegate.holder]
    exact hdelegate.good phase none hvacant

end Good

theorem State.grantNext_letGo {st st' : State} (h : st.grantNext = some st') :
    st'.threads.count (·.letGo) = st.threads.count (·.letGo) := by
  obtain ⟨t, slot, why, -, -, rfl⟩ := State.grantNext_eq h
  exact st.threads.count_modify_eq t fun _ => rfl

theorem State.grantIfIdle_letGo :
    st.grantIfIdle.threads.count (·.letGo) = st.threads.count (·.letGo) := by
  simp only [State.grantIfIdle]
  split
  · cases hgrant : st.grantNext with
    | none => rfl
    | some st' => exact State.grantNext_letGo hgrant
  · rfl

theorem State.handOn_letGo : st.handOn.threads.count (·.letGo) = st.threads.count (·.letGo) := by
  simp only [State.handOn]
  cases hgrant : ({ st with holder := none } : State).grantNext with
  | none => exact (State.delegate_quiet _).letGo
  | some st' =>
    rw [Option.getD_some, State.grantNext_letGo hgrant]

/-! ## The scheduler -/

/-- The schedule's invariant: the table's, and the count of let-go threads. -/
structure Scheduler.Keeps (s : Scheduler) (phase : Nat → Phase) (holder : Option Nat) : Prop where
  good : s.toState.Good phase holder
  letGo_eq : s.letGo = s.threads.count (·.letGo)

namespace Scheduler

variable {s : Scheduler} {phase : Nat → Phase} {holder : Option Nat}

@[simp] theorem lock_toState (s : Scheduler) : s.lock.toState = s.toState := by
  simp only [lock]
  split <;> rfl

@[simp] theorem lock_letGo (s : Scheduler) : s.lock.letGo = s.letGo := by
  simp only [lock]
  split <;> rfl

@[simp] theorem lock_detached (s : Scheduler) : s.lock.detached = s.detached := by
  simp only [lock]
  split <;> rfl

theorem Keeps.lock (h : s.Keeps phase holder) : s.lock.Keeps phase holder :=
  ⟨by rw [lock_toState]; exact h.good, by rw [lock_letGo, lock_toState]; exact h.letGo_eq⟩

theorem Keeps.quiet {st : State} (h : s.Keeps phase holder) (hquiet : Quiet s.toState st) :
    (s.withState st).Keeps phase holder :=
  ⟨hquiet.good phase holder h.good, h.letGo_eq.trans hquiet.letGo.symm⟩

theorem Keeps.grantIfIdle (h : s.Keeps phase s.holder) :
    (s.withState s.grantIfIdle).Keeps phase (s.withState s.grantIfIdle).holder :=
  ⟨h.good.grantIfIdle, h.letGo_eq.trans s.grantIfIdle_letGo.symm⟩

theorem Keeps.handOn (h : s.Keeps phase none) :
    (s.withState s.handOn).Keeps phase (s.withState s.handOn).holder :=
  ⟨h.good.handOn, h.letGo_eq.trans s.handOn_letGo.symm⟩

theorem takeForeign_quiet (s : Scheduler) : Quiet s.toState s.takeForeign.toState := by
  have hround : ∀ (st : State) (w : ForeignWake),
      Quiet st (st.wakeForeignLocked w.key w.n w.mask w.priv).1 :=
    fun st w => st.wakeForeignLocked_quiet w.key w.n w.mask w.priv
  exact Quiet.foldl hround s.foreignQueue s.toState

theorem Keeps.takeForeign (h : s.Keeps phase holder) : s.takeForeign.Keeps phase holder :=
  let hkept := h.quiet s.takeForeign_quiet
  { hkept with }

/-! ## Dispatching -/

theorem released_fits {phase : Phase} {holds : Prop} {slot : Slot} (h : Fits phase holds slot) :
    Fits phase holds (released slot) := by
  have hsettled := h.repolled none
  simp only [released]
  split
  · next hblocked => exact hsettled.letGo hblocked
  · exact hsettled

variable (slot : Slot)

theorem released_runnable : (released slot).runnable = slot.runnable := by
  simp only [released]
  split <;> rfl

theorem released_blocked : (released slot).blocked = none := by
  simp only [released]
  split
  · rfl
  · next hblocked => simpa using hblocked

theorem released_letGo :
    (released slot).letGo.toNat = slot.letGo.toNat +
      (slot.blocked.isSome && !slot.letGo).toNat := by
  simp only [released]
  split
  · next hblocked =>
    rw [hblocked]
    cases slot.letGo <;> rfl
  · next hblocked =>
    have hblocked : slot.blocked.isSome = false := by simpa using hblocked
    rw [hblocked]
    rfl

theorem Keeps.detach (h : s.Keeps phase none) : s.detach.Keeps phase none where
  good := by
    refine h.good.map (f := released) (fun _ _ _ => released_fits) ?_ ?_
    · intro slot
      rw [released_runnable]
    · refine (count_eq_zero.mpr fun t slot _ => ?_).symm
      rw [released_blocked, Option.isSome_none]
  letGo_eq := by
    show s.letGo + _ = (s.threads.map fun _ => released).count _
    rw [count_map, h.letGo_eq]
    exact (s.threads.count_add released_letGo).symm

theorem answer_quiet (s : Scheduler) (finding : Finding) :
    ∃ st, (s.answer finding).1 = s.withState st ∧ Quiet s.toState st := by
  cases finding with
  | rest => exact ⟨s.toState, rfl, Quiet.refl _⟩
  | timerWakes mem => exact ⟨_, rfl, s.repollAddrWaiters_quiet mem⟩
  | realReady keys =>
    have hround : ∀ (st : State) (key : ReadinessKey),
        Quiet st (st.wakeReadinessKey (.keys [key])).1 := fun st key => st.wakeReadinessKey_quiet _
    exact ⟨_, rfl, Quiet.foldl hround keys s.toState⟩
  | skipped now =>
    exact ⟨_, rfl, (s.releaseDue_quiet now).trans (State.wakeReadinessKey_quiet _ _)⟩
  | stuck inStaticImage =>
    simp only [answer]
    split
    · exact ⟨s.toState, rfl, Quiet.refl _⟩
    · exact ⟨_, rfl, s.wakeKey_quiet _ _ _⟩

/-- **A dispatcher's rounds.** They end with the baton granted, with every waiter let go, or with
nothing to run. -/
theorem Keeps.dispatch (h : s.Keeps phase none) (hvacant : s.holder = none)
    (outlooks : List Outlook) : (s.dispatch outlooks).Keeps phase (s.dispatch outlooks).holder := by
  induction outlooks generalizing s with
  | nil =>
    simp only [Scheduler.dispatch]
    rwa [hvacant]
  | cons outlook rest ih =>
    have htake := h.takeForeign
    have hvacant' : s.takeForeign.holder = none := s.takeForeign_quiet.holder.trans hvacant
    simp only [Scheduler.dispatch]
    split
    · next st hgrant =>
      exact ⟨htake.good.grantNext hgrant, htake.letGo_eq.trans (State.grantNext_letGo hgrant).symm⟩
    split
    · rwa [hvacant']
    split
    · have hdetach := htake.detach
      have hholder : s.takeForeign.detach.holder = none := hvacant'
      rwa [hholder]
    · obtain ⟨st, heq, hquiet⟩ := s.takeForeign.answer_quiet outlook.finding
      have hanswer := htake.quiet hquiet
      have hholder : (s.takeForeign.withState st).holder = none := hquiet.holder.trans hvacant'
      split
      · next s' hs' =>
        have : s' = s.takeForeign.withState st := by rw [← heq, hs']
        subst this
        exact ih hanswer hholder
      · next s' hs' =>
        have : s' = s.takeForeign.withState st := by rw [← heq, hs']
        subst this
        rwa [hholder]

theorem afterRest_quiet (s : Scheduler) (rested : Rest) : Quiet s.toState (s.afterRest rested) := by
  cases rested with
  | idled now moved executive mem =>
    simp only [afterRest]
    split
    · exact Quiet.refl _
    refine Quiet.trans ?_ (State.repollAddrWaiters_quiet _ mem)
    split
    · exact Quiet.refl _
    split
    · exact (s.releaseDue_quiet now).trans (State.wakeReadinessKey_quiet _ _)
    · exact s.releaseDue_quiet now
  | asked => exact Quiet.refl _
  | foreignSkipped now => exact s.releaseDue_quiet now
  | polled mem => exact s.repollAddrWaiters_quiet mem

theorem Keeps.redispatch (h : s.Keeps phase s.holder) (rested : Rest) (outlooks : List Outlook) :
    (s.redispatch rested outlooks).Keeps phase (s.redispatch rested outlooks).holder := by
  have hlock := h.lock
  have hholder : s.lock.holder = s.holder := by rw [lock_toState]
  simp only [Scheduler.redispatch]
  split
  · rwa [hholder]
  next hvacant =>
    replace hvacant : s.lock.holder = none := by simpa using hvacant
    rw [← hholder, hvacant] at hlock
    -- what it finds makes waiters runnable; the rounds start from there
    have hquiet := s.lock.afterRest_quiet rested
    exact (hlock.quiet hquiet).dispatch (hquiet.holder.trans hvacant) outlooks

end Scheduler

end Snare.Sched
