import Snare.Sched.Keyed

/-!
# What the wakes leave alone

The sections of the schedule are built from a few moves, most of them wakes. **`Stirs`** is what
every wake has in common: the baton stays where it is, no slot goes away, whoever is runnable stays
so, no thread is marked as let go, and the keys kept for later waits stay the same. `Readied.stirs`
gives it to everything that moves waiters by key or deadline; the lemmas after it take it to the
rest. **`Frame`** is the part of it that also holds of the moves that hand the baton on.
-/

namespace Snare.Sched

def State.Unmarked (st : State) : Prop := ∀ t slot, st.slot t = some slot → slot.letGo = false

/-- The second state is the first with other slots and counters, and no more threads let go. -/
structure Frame (st st' : State) : Prop where
  foreign : st'.foreign = st.foreign
  unmarked : st.Unmarked → st'.Unmarked

structure Stirs (st st' : State) : Prop extends Frame st st' where
  holder : st'.holder = st.holder
  slots : ∀ t, (st.slot t).isSome → (st'.slot t).isSome
  runnable : ∀ t, st.isRunnable t → st'.isRunnable t

namespace Frame

variable (st : State)

theorem refl : Frame st st := ⟨rfl, id⟩

theorem trans {st₁ st₂ st₃ : State} (h₁ : Frame st₁ st₂) (h₂ : Frame st₂ st₃) : Frame st₁ st₃ :=
  ⟨h₂.foreign.trans h₁.foreign, fun h => h₂.unmarked (h₁.unmarked h)⟩

theorem of_eq {st st' : State} (hthreads : st'.threads = st.threads)
    (hforeign : st'.foreign = st.foreign) : Frame st st' :=
  ⟨hforeign, fun h t slot hslot => h t slot (by rwa [State.slot, hthreads] at hslot)⟩

variable (t : Nat)

theorem modify {f : Slot → Slot}
    (hf : ∀ slot, slot.letGo = false → (f slot).letGo = false) : Frame st (st.modify t f) := by
  refine ⟨rfl, fun h t' slot hslot => ?_⟩
  rw [State.slot_modify, Option.map_eq_some_iff] at hslot
  obtain ⟨slot', hslot', rfl⟩ := hslot
  split
  · exact hf slot' (h t' slot' hslot')
  · exact h t' slot' hslot'

theorem remove : Frame st (st.remove t) := by
  refine ⟨rfl, fun h t' slot hslot => ?_⟩
  have hget : (st.threads.erase t).get? t' = some slot := hslot
  rw [SortedMap.get?_erase] at hget
  split at hget
  · cases hget
  · exact h t' slot hget

theorem takeRunnable : Frame st (st.takeRunnable t).1 := by
  unfold State.takeRunnable
  split
  · exact refl st
  · have h := modify st t (f := fun slot => { slot with runnable := none }) fun _ h => h
    exact { h with }

theorem takeBlocked : Frame st (st.takeBlocked t).1 := by
  unfold State.takeBlocked
  split
  · exact refl st
  · have h := modify st t (f := fun slot => { slot with blocked := none }) fun _ h => h
    exact { h with }

end Frame

namespace Stirs

variable (st : State)

theorem refl : Stirs st st := ⟨.refl st, rfl, fun _ h => h, fun _ h => h⟩

theorem trans {st₁ st₂ st₃ : State} (h₁ : Stirs st₁ st₂) (h₂ : Stirs st₂ st₃) : Stirs st₁ st₃ :=
  ⟨h₁.toFrame.trans h₂.toFrame, h₂.holder.trans h₁.holder, fun t h => h₂.slots t (h₁.slots t h),
    fun t h => h₂.runnable t (h₁.runnable t h)⟩

theorem foldl {α : Type} {f : State → α → State} (hf : ∀ st a, Stirs st (f st a)) (as : List α)
    (st : State) : Stirs st (as.foldl f st) :=
  as.foldlRecOn f (refl st) fun st' h a _ => h.trans (hf st' a)

theorem withForeign {st st' : State} (h : Stirs st st') (foreign : ForeignKeys) :
    Stirs { st with foreign } { st' with foreign } :=
  ⟨⟨rfl, h.unmarked⟩, h.holder, h.slots, h.runnable⟩

theorem of_slots {st st' : State} {f : Nat → Slot → Slot}
    (hslots : ∀ t, st'.slot t = (st.slot t).map (f t)) (hholder : st'.holder = st.holder)
    (hforeign : st'.foreign = st.foreign)
    (hletGo : ∀ t slot, slot.letGo = false → (f t slot).letGo = false)
    (hrunnable : ∀ t slot, slot.runnable.isSome → (f t slot).runnable.isSome) : Stirs st st' := by
  refine ⟨⟨hforeign, fun h t slot hslot => ?_⟩, hholder, fun t h => ?_, fun t h => ?_⟩
  · rw [hslots, Option.map_eq_some_iff] at hslot
    obtain ⟨slot', hslot', rfl⟩ := hslot
    exact hletGo t slot' (h t slot' hslot')
  · rw [hslots, Option.isSome_map]
    exact h
  · simp only [State.isRunnable, hslots, Option.any_map] at h ⊢
    obtain ⟨slot, hslot, hsome⟩ := (Option.any_eq_true _ _).mp h
    rw [hslot]
    exact hrunnable t slot hsome

variable (t : Nat)

theorem modify {f : Slot → Slot} (hletGo : ∀ slot, slot.letGo = false → (f slot).letGo = false)
    (hrunnable : ∀ slot, slot.runnable.isSome → (f slot).runnable.isSome) :
    Stirs st (st.modify t f) := by
  refine of_slots (st.slot_modify t f) rfl rfl (fun t' slot h => ?_) fun t' slot h => ?_
  · split
    · exact hletGo slot h
    · exact h
  · split
    · exact hrunnable slot h
    · exact h

theorem insertSlot : Stirs st (st.insertSlot t) := by
  refine ⟨⟨rfl, fun h t' slot hslot => ?_⟩, rfl, fun t' h => ?_, fun t' h => ?_⟩
  · rw [State.slot_insertSlot] at hslot
    split at hslot
    · cases hold : st.slot t with
      | none =>
        rw [hold] at hslot
        cases hslot
        rfl
      | some old =>
        rw [hold] at hslot
        cases hslot
        exact h t old hold
    · exact h t' slot hslot
  · rw [State.slot_insertSlot]
    split
    · rfl
    · exact h
  · simp only [State.isRunnable, State.slot_insertSlot] at h ⊢
    split
    · next heq =>
      subst heq
      obtain ⟨slot, hslot, hsome⟩ := (Option.any_eq_true _ _).mp h
      rw [hslot]
      exact hsome
    · exact h

theorem setRunnable (why : DetWake) : Stirs st (st.setRunnable t why) := by
  unfold State.setRunnable
  split
  · exact refl st
  · have h := modify st t (f := fun slot => { slot with runnable := some why }) (fun _ h => h)
      fun _ _ => rfl
    exact { h with }

theorem setBlocked (b : Blocked) : Stirs st (st.setBlocked t b) := by
  unfold State.setBlocked
  split
  · exact refl st
  · have h := modify st t (f := fun slot => { slot with blocked := some (b, st.nextWait) })
      (fun _ h => h) fun _ h => h
    exact { h with }

end Stirs

theorem Readied.stirs {why : DetWake} {st st' : State} {ts : List Nat} (h : Readied why st st' ts) :
    Stirs st st' := by
  refine .of_slots (f := fun t slot => if t ∈ ts then slot.readied why else slot) (fun t => ?_)
    (by rw [h.rest]) (by rw [h.rest]) ?_ ?_
  · rw [h.slots t]
    split
    · rfl
    · exact Option.map_id'.symm
  · intro t slot hslot
    split <;> exact hslot
  · intro t slot hslot
    split
    · rfl
    · exact hslot

namespace State

variable (st : State)

/-! ## The wakes -/

variable (t : Nat)

theorem unblock_stirs (why : DetWake) : Stirs st (st.unblock t why) := by
  cases hblocked : (st.slot t).bind (·.blocked) with
  | none =>
    rw [unblock_of_not_blocked hblocked]
    exact .refl st
  | some b =>
    obtain ⟨slot, hslot, hb⟩ := Option.bind_eq_some_iff.mp hblocked
    exact (unblock_readied hslot (by rw [hb]; rfl) why).stirs

variable (key : DetKey) (n : Nat)

theorem wakeKeyMatching_stirs (why : DetWake) (hit : Blocked → Bool) :
    Stirs st (st.wakeKeyMatching key n why hit).1 := by
  obtain ⟨ts, -, -, -, hready⟩ := st.wakeKeyMatching_readied key n why hit
  exact hready.stirs

theorem wakeKey_stirs (why : DetWake) : Stirs st (st.wakeKey key n why).1 :=
  st.wakeKeyMatching_stirs key n why _

theorem wakeReadinessKey_stirs (event : ReadinessWake) : Stirs st (st.wakeReadinessKey event).1 :=
  st.wakeKeyMatching_stirs _ _ _ _

variable (now : Option Nat)

theorem releaseDueMatching_stirs (hit : Blocked → Bool) :
    Stirs st (st.releaseDueMatching now hit) := by
  obtain ⟨ts, -, hready⟩ := st.releaseDueMatching_readied now hit
  exact hready.stirs

theorem releaseDue_stirs : Stirs st (st.releaseDue now) :=
  st.releaseDueMatching_stirs now _

theorem wakeOutsideOne_stirs (acc : State × Nat) (t : Nat) :
    Stirs acc.1 (wakeOutsideOne key n acc t).1 := by
  obtain ⟨st, woken⟩ := acc
  simp only [wakeOutsideOne]
  split
  · exact .refl st
  split
  · exact .refl st
  split
  · exact .refl st
  · have h :=
      Stirs.modify st t (f := fun slot => { slot with outside := none, runnable := some .woken })
      (fun _ h => h) fun _ _ => rfl
    exact { h with }

theorem wakeOutside_stirs : Stirs st (st.wakeOutside key n).1 :=
  List.foldlRecOn (motive := fun acc => Stirs st acc.1) _ _ (.refl st) fun acc h t _ =>
    h.trans (wakeOutsideOne_stirs key n acc t)

theorem setRepolled_stirs (key : Option DetKey) :
    Stirs st (st.modify t fun slot => { slot with repolled := key }) :=
  .modify st t (fun _ h => h) fun _ h => h

theorem repoll_stirs (key : DetKey) : Stirs st (st.repoll t key) :=
  (st.unblock_stirs t .woken).trans ((st.unblock t .woken).setRepolled_stirs t (some key))

theorem repollAddrWaiters_stirs (mem : Memory) : Stirs st (st.repollAddrWaiters mem) := by
  refine Stirs.foldl (fun st t => ?_) _ st
  split
  · exact .refl st
  · exact st.repoll_stirs t _

theorem kicked_stirs (timerWakes : Option Memory) :
    Stirs st (timerWakes.elim ((st.releaseDue now).wakeReadinessKey .timer).1
      ((st.releaseDue now).wakeReadinessKey .timer).1.repollAddrWaiters) := by
  have htimer := (st.releaseDue_stirs now).trans (wakeReadinessKey_stirs _ .timer)
  cases timerWakes with
  | none => exact htimer
  | some mem => exact htimer.trans (repollAddrWaiters_stirs _ mem)

theorem settleRepoll_stirs (blockedOn : Option DetKey) :
    Stirs st (st.settleRepoll t blockedOn) := by
  have hset := st.setRepolled_stirs t none
  simp only [settleRepoll]
  split
  · exact .refl st
  split
  · exact { hset with }
  · exact hset

theorem disown_stirs (me : Nat) : Stirs st (st.disown me).1 := by
  refine Stirs.foldl (fun st addr => ?_) _ st
  have hwake := ({ st with owners := st.owners.erase addr } : State).wakeKey_stirs (.addr addr)
    everyone .woken
  exact { hwake with }

theorem explain_stirs : Stirs st (st.explain key) := by
  refine .of_slots
    (f := fun _ slot => if slot.repolled = some key then { slot with repolled := none } else slot)
    (fun t => ?_) rfl rfl ?_ ?_
  · show (st.threads.map _).get? t = _
    rw [SortedMap.get?_map]
    rfl
  · intro t slot h
    split <;> exact h
  · intro t slot h
    split <;> exact h

theorem delegate_stirs : Stirs st st.delegate := by
  simp only [delegate]
  split
  · exact .refl st
  · exact .modify st _ (fun _ h => h) fun _ h => h

/-! ## Handing the baton on -/

theorem grantNext_frame {st st' : State} (h : st.grantNext = some st') : Frame st st' := by
  obtain ⟨t, slot, why, -, -, rfl⟩ := grantNext_eq h
  have hmodify := Frame.modify st t
    (f := fun slot => { slot with runnable := none, latch := some (.run why) }) fun _ h => h
  exact { hmodify with }

theorem grantIfIdle_frame : Frame st st.grantIfIdle := by
  simp only [grantIfIdle]
  split
  · cases hgrant : st.grantNext with
    | none => exact .refl st
    | some st' => exact grantNext_frame hgrant
  · exact .refl st

theorem frame_wakeIf {st st' : State} (h : Frame st st') {c : Prop} [Decidable c] :
    Frame st (if c then st'.grantIfIdle else st') := by
  split
  · exact h.trans (grantIfIdle_frame _)
  · exact h

theorem handOn_frame : Frame st st.handOn := by
  have hvacant : Frame st { st with holder := none } := ⟨rfl, id⟩
  simp only [handOn]
  cases hgrant : ({ st with holder := none } : State).grantNext with
  | none => exact hvacant.trans (delegate_stirs _).toFrame
  | some st' => exact hvacant.trans (grantNext_frame hgrant)

end State

/-! ## What comes from outside -/

namespace Scheduler

theorem wakeForeignLocked_stirs (st : State) (w : ForeignWake) :
    Stirs { st with foreign := (st.wakeForeignLocked w.key w.n w.mask w.priv).1.foreign }
      (st.wakeForeignLocked w.key w.n w.mask w.priv).1 := by
  have hwake := st.wakeKeyMatching_stirs w.key w.n .woken fun wait => wait.reached w.mask w.priv
  simp only [State.wakeForeignLocked]
  split
  · exact hwake.withForeign _
  · exact hwake.withForeign _

theorem takeForeign_stirs (s : Scheduler) :
    Stirs { s.toState with foreign := s.takeForeign.foreign } s.takeForeign.toState := by
  have hloop : ∀ (ws : List ForeignWake) (st : State),
      let st' := ws.foldl (fun st w => (st.wakeForeignLocked w.key w.n w.mask w.priv).1) st
      Stirs { st with foreign := st'.foreign } st' := by
    intro ws
    induction ws with
    | nil => exact fun st => .refl st
    | cons w ws ih =>
      intro st
      exact ((wakeForeignLocked_stirs st w).withForeign _).trans (ih _)
  exact hloop s.foreignQueue s.toState

theorem afterRest_stirs (s : Scheduler) (rested : Rest) : Stirs s.toState (s.afterRest rested) := by
  cases rested with
  | idled now moved executive mem =>
    simp only [afterRest]
    split
    · exact .refl _
    refine Stirs.trans ?_ (State.repollAddrWaiters_stirs _ mem)
    split
    · exact .refl _
    split
    · exact (s.releaseDue_stirs now).trans (State.wakeReadinessKey_stirs _ _)
    · exact s.releaseDue_stirs now
  | asked => exact .refl _
  | foreignSkipped now => exact s.releaseDue_stirs now
  | polled mem => exact s.repollAddrWaiters_stirs mem

end Scheduler

end Snare.Sched
