import Snare.Sched.Wakes

/-!
# Every locked section keeps the invariant

One lemma a section, over the caller's phase before and after it. Three need a condition:
`unspawned`, that the thread does not hold the baton; `waitOutside`, that a let-go thread is neither
queued nor the holder; `attachThread`, `block` and `yieldNow`, that nothing is left of a native
wait.
-/

namespace Snare.Sched

open Function SortedMap

/-! ## A thread's own slot -/

namespace State

variable (st : State)

theorem takeRunnable_quiet (t : Nat) : Quiet st (st.takeRunnable t).1 := by
  simp only [takeRunnable]
  split
  · exact Quiet.refl st
  next why hwhy =>
    obtain ⟨slot, hslot, hrunnable⟩ := Option.bind_eq_some_iff.mp hwhy
    have hsome : slot.runnable.isSome := by rw [hrunnable]; rfl
    refine Quiet.busy (f := fun slot => { slot with runnable := none }) hslot ?_ rfl rfl ?_ fun _ =>
      rfl
    · intro hfree
      simp [hfree.runnable] at hsome
    · intro phase holder h
      have hpos : 0 < st.runnable := by
        rw [h.runnable_eq]
        exact count_pos hslot hsome
      refine h.modify hslot (fun _ _ => rfl) (fun _ _ => Iff.rfl)
        (h.fits t slot hslot).dropRunnable ?_ rfl
      simp only [hsome, Option.isSome_none, Bool.toNat_true, Bool.toNat_false]
      omega

theorem takeBlocked_quiet (t : Nat) : Quiet st (st.takeBlocked t).1 := by
  simp only [takeBlocked]
  split
  · exact Quiet.refl st
  next b order hb =>
    obtain ⟨slot, hslot, hblocked⟩ := Option.bind_eq_some_iff.mp hb
    have hsome : slot.blocked.isSome := by rw [hblocked]; rfl
    refine Quiet.busy (f := fun slot => { slot with blocked := none }) hslot ?_ rfl rfl ?_ fun _ =>
      rfl
    · intro hfree
      simp [hfree.blocked] at hsome
    · intro phase holder h
      have hpos : 0 < st.blocked := by
        rw [h.blocked_eq]
        exact count_pos hslot hsome
      refine h.modify hslot (fun _ _ => rfl) (fun _ _ => Iff.rfl)
        (h.fits t slot hslot).dropBlocked rfl ?_
      simp only [hsome, Option.isSome_none, Bool.toNat_true, Bool.toNat_false]
      omega

theorem kicked_quiet (now : Option Nat) (timerWakes : Option Memory) :
    let due := ((st.releaseDue now).wakeReadinessKey .timer).1
    Quiet st (timerWakes.elim due due.repollAddrWaiters) := by
  have hdue := (st.releaseDue_quiet now).trans (wakeReadinessKey_quiet _ .timer)
  cases timerWakes with
  | none => exact hdue
  | some mem => exact hdue.trans (repollAddrWaiters_quiet _ mem)

variable {st} {t : Nat} {slot : Slot}

theorem slot_modify_of_slot (f : Slot → Slot) (hslot : st.slot t = some slot) :
    (st.modify t f).slot t = some (f slot) := by
  rw [slot_modify, hslot, Option.map_some, if_pos rfl]

theorem slot_takeRunnable (hslot : (st.takeRunnable t).1.slot t = some slot) :
    slot.runnable = none := by
  simp only [takeRunnable] at hslot
  split at hslot
  · next hnone => rwa [hslot, Option.bind_some] at hnone
  · next why hwhy =>
    obtain ⟨old, hold, -⟩ := Option.bind_eq_some_iff.mp hwhy
    cases (slot_modify_of_slot _ hold).symm.trans hslot
    rfl

theorem slot_takeBlocked (hslot : (st.takeBlocked t).1.slot t = some slot) :
    slot.blocked = none ∧ ∃ old, st.slot t = some old ∧ slot = { old with blocked := none } := by
  simp only [takeBlocked] at hslot
  split at hslot
  · next hnone =>
    rw [hslot, Option.bind_some] at hnone
    exact ⟨hnone, slot, hslot, by rw [← hnone]⟩
  · next b order hb =>
    obtain ⟨old, hold, -⟩ := Option.bind_eq_some_iff.mp hb
    cases (slot_modify_of_slot _ hold).symm.trans hslot
    exact ⟨rfl, old, hold, rfl⟩

theorem insertSlot_of_some (hslot : st.slot t = some slot) : st.insertSlot t = st := by
  have hget : st.threads.get? t = some slot := hslot
  have hthreads : (st.threads.alter t fun slot => some (slot.getD {})) = st.threads := by
    refine ext_get? fun t' => ?_
    rw [get?_alter]
    split
    · next heq => rw [heq, hget, Option.getD_some]
    · rfl
  simp only [insertSlot, hthreads]

end State

namespace Good

variable {phase phase' : Nat → Phase} {holder holder' : Option Nat} {st : State} {t : Nat}
  {slot : Slot}

theorem setRunnable (h : st.Good phase holder) (hslot : st.slot t = some slot)
    (hrunnable : slot.runnable = none) (hphase : ∀ t' ≠ t, phase' t' = phase t')
    (hholder : ∀ t' ≠ t, (holder' = some t' ↔ holder = some t')) {why : DetWake}
    (hfits : Fits (phase' t) (holder' = some t) { slot with runnable := some why }) :
    (st.setRunnable t why).Good phase' holder' := by
  have hset : st.setRunnable t why =
      { st.modify t fun slot => { slot with runnable := some why } with
        runnable := st.runnable + 1 } := by
    simp [State.setRunnable, hslot, hrunnable]
  rw [hset]
  refine h.modify hslot hphase hholder hfits ?_ rfl
  simp [hrunnable]

theorem setBlocked (h : st.Good phase holder) (hslot : st.slot t = some slot)
    (hblocked : slot.blocked = none) (hphase : ∀ t' ≠ t, phase' t' = phase t')
    (hholder : ∀ t' ≠ t, (holder' = some t' ↔ holder = some t')) {b : Blocked}
    (hfits : Fits (phase' t) (holder' = some t) { slot with blocked := some (b, st.nextWait) }) :
    (st.setBlocked t b).Good phase' holder' := by
  have hset : st.setBlocked t b =
      { st.modify t fun slot => { slot with blocked := some (b, st.nextWait) } with
        blocked := st.blocked + 1
        nextWait := st.nextWait + 1 } := by
    simp [State.setBlocked, hslot, hblocked]
  rw [hset]
  refine h.modify hslot hphase hholder hfits rfl ?_
  simp [hblocked]

theorem insertSlot (h : st.Good phase holder) (ht : t ≠ external) (hslot : st.slot t = none)
    (hphase : ∀ t' ≠ t, phase' t' = phase t')
    (hholder : ∀ t' ≠ t, (holder' = some t' ↔ holder = some t')) (hpresent : phase' t ≠ .absent) :
    (st.insertSlot t).Good phase' holder' :=
  h.insert (f := fun slot => some (slot.getD {})) ht hslot rfl hphase hholder hpresent

end Good

theorem State.slot_insertSlot_of_none {st : State} {t : Nat} (hslot : st.slot t = none) :
    (st.insertSlot t).slot t = some {} := by
  rw [slot_insertSlot, if_pos rfl, hslot, Option.getD_none]

theorem State.insertSlot_letGo (st : State) (t : Nat) :
    (st.insertSlot t).threads.count (·.letGo) = st.threads.count (·.letGo) := by
  cases hslot : st.slot t with
  | none => exact count_alter_of_none (v := {}) hslot rfl rfl
  | some slot => rw [State.insertSlot_of_some hslot]

theorem State.setRunnable_letGo (st : State) (t : Nat) (why : DetWake) :
    (st.setRunnable t why).threads.count (·.letGo) = st.threads.count (·.letGo) := by
  simp only [State.setRunnable]
  split
  · rfl
  · exact st.threads.count_modify_eq t fun _ => rfl

theorem State.setBlocked_letGo (st : State) (t : Nat) (b : Blocked) :
    (st.setBlocked t b).threads.count (·.letGo) = st.threads.count (·.letGo) := by
  simp only [State.setBlocked]
  split
  · rfl
  · exact st.threads.count_modify_eq t fun _ => rfl

/-! ## Sections that only wake -/

namespace Scheduler

variable {s : Scheduler} {phase : Nat → Phase} {me : Nat}

abbrev Sound (s : Scheduler) (phase : Nat → Phase) : Prop := s.Keeps phase s.holder

theorem Sound.lock (h : s.Sound phase) : s.lock.Sound phase := by
  have hholder : s.lock.holder = s.holder := by rw [lock_toState]
  rw [Sound, hholder]
  exact Keeps.lock h

variable {st : State}

section

variable (h : s.Sound phase)
include h

theorem Sound.quiet (hquiet : Quiet s.toState st) : (s.withState st).Sound phase := by
  have hholder : (s.withState st).holder = s.holder := hquiet.holder
  rw [Sound, hholder]
  exact Keeps.quiet h hquiet

theorem Sound.wake (hquiet : Quiet s.toState st) :
    (s.withState st.grantIfIdle).Sound phase :=
  (h.quiet hquiet).grantIfIdle

theorem Sound.wakeIf {c : Prop} [Decidable c]
    (hquiet : Quiet s.toState st) :
    (s.withState (if c then st.grantIfIdle else st)).Sound phase := by
  split
  · exact h.wake hquiet
  · exact h.quiet hquiet

theorem Sound.advanced (now : Option Nat) (timerWakes : Option Memory) :
    (s.advanced now timerWakes).Sound phase :=
  h.lock.quiet (s.lock.kicked_quiet now timerWakes)

theorem Sound.kick (now : Option Nat) (timerWakes : Option Memory) :
    (s.kick now timerWakes).Sound phase :=
  h.lock.wake (s.lock.kicked_quiet now timerWakes)

theorem Sound.wakeMasked (key : DetKey) (n : Nat) (mask : UInt32)
    (priv : Option Bool) : (s.wakeMasked key n mask priv).Sound phase := by
  have hwake := (s.lock.explain_quiet key).trans
    (State.wakeKeyMatching_quiet _ key n .woken fun wait => wait.reached mask priv)
  simp only [Scheduler.wakeMasked]
  refine h.lock.wakeIf (hwake.trans ?_)
  split
  · exact State.wakeOutside_quiet _ _ _
  · exact Quiet.refl _

theorem Sound.wakeReadiness (event : ReadinessWake) : (s.wakeReadiness event).Sound phase := by
  simp only [Scheduler.wakeReadiness]
  refine h.lock.wakeIf ((s.lock.wakeReadinessKey_quiet event).trans ?_)
  split
  · exact State.wakeOutside_quiet _ _ _
  · exact Quiet.refl _

theorem Sound.wakeForeign (w : ForeignWake) : (s.wakeForeign w).Sound phase :=
  h.lock.wakeIf (s.lock.wakeForeignLocked_quiet w.key w.n w.mask w.priv)

theorem Sound.repollIfSpoiled (me : Nat) : (s.repollIfSpoiled me).Sound phase := by
  simp only [Scheduler.repollIfSpoiled]
  split
  · exact h.lock
  · next b order _ => exact h.lock.wake (s.lock.repoll_quiet me b.key)

theorem Sound.took (addr me : Nat) : (s.took addr me).Sound phase := by
  simp only [Scheduler.took]
  split
  · exact ⟨h.lock.good, h.lock.letGo_eq⟩
  · exact h.lock

/-! ## The executive -/

theorem Sound.holdBaton (hholder : s.holder = none ∨ s.holder = some external) :
    Sound { s with holder := some external } phase :=
  ⟨h.good.executive hholder (Or.inr rfl), h.letGo_eq⟩

theorem Sound.acquireExternal : s.acquireExternal.Sound phase := by
  simp only [Scheduler.acquireExternal]
  split
  · next hidle =>
    refine h.lock.holdBaton (Or.inl ?_)
    simp only [State.idle, Bool.and_eq_true] at hidle
    simpa using hidle.1
  · exact h.lock

theorem Sound.holdExternal : s.holdExternal.Sound phase := by
  simp only [Scheduler.holdExternal]
  split
  · next hrunning =>
    refine h.lock.holdBaton ?_
    have hnone : s.lock.holder.filter (· ≠ external) = none := by
      simp only [State.running, Option.isNone_iff_eq_none, Option.or_eq_none_iff] at hrunning
      exact hrunning.1
    cases hholder : s.lock.holder with
    | none => exact Or.inl rfl
    | some t =>
      have hext : t = external := by
        rw [Option.filter_eq_none_iff] at hnone
        simpa using hnone t hholder
      exact Or.inr (congrArg some hext)
  · exact h.lock

theorem Sound.releaseExternal : s.releaseExternal.Sound phase := by
  simp only [Scheduler.releaseExternal]
  split
  · exact h.lock
  · next hholder =>
    have hvacant := h.lock.good.executive (Or.inr (not_not.mp hholder)) (Or.inl rfl)
    exact Keeps.handOn ⟨hvacant, h.lock.letGo_eq⟩

end

/-! ## Entering and leaving -/

theorem phase_of_ne (phase : Nat → Phase) (me : Nat) (p : Phase) :
    ∀ t ≠ me, update phase me p t = phase t :=
  fun _ hne => update_of_ne hne p phase

theorem setRunnable_holder (st : State) (t : Nat) (why : DetWake) :
    (st.setRunnable t why).holder = st.holder := by
  simp only [State.setRunnable]
  split <;> rfl

theorem setBlocked_holder (st : State) (t : Nat) (b : Blocked) :
    (st.setBlocked t b).holder = st.holder := by
  simp only [State.setBlocked]
  split <;> rfl

section

variable (h : s.Sound phase)
include h

section

variable (hme : me ≠ external)
include hme

theorem Sound.enterRoot (hphase : phase me = .absent) :
    (s.enterRoot me).1.Sound (update phase me (parkedIf (s.enterRoot me).2)) := by
  have hl := h.lock
  simp only [Scheduler.enterRoot]
  generalize s.lock = s at hl ⊢
  have hslot : s.slot me = none := hl.good.slot_none hphase
  have hletGo : s.letGo = (s.insertSlot me).threads.count (·.letGo) :=
    hl.letGo_eq.trans (s.insertSlot_letGo me).symm
  split
  · next hnone =>
    replace hnone : s.holder = none := Option.isNone_iff_eq_none.mp hnone
    refine ⟨hl.good.insertSlot hme hslot (phase_of_ne _ _ _) ?_ ?_, hletGo⟩
    · intro t hne
      simp [hnone, Ne.symm hne]
    · simp [parkedIf]
  · have hinsert : (s.insertSlot me).Good (update phase me .parked) s.holder :=
      hl.good.insertSlot hme hslot (phase_of_ne _ _ _) (fun _ _ => Iff.rfl) (by simp)
    have hnot := hl.good.not_held hme hslot
    have hnew := State.slot_insertSlot_of_none hslot
    -- the roots are counted between the two, which the table does not show
    let st : State := { s.insertSlot me with roots := (s.insertSlot me).roots + 1 }
    have hst : st.Good (update phase me .parked) s.holder := hinsert
    have hqueue : (st.setRunnable me .woken).Good (update phase me .parked) s.holder :=
      hst.setRunnable hnew rfl (fun _ _ => rfl) (fun _ _ => Iff.rfl)
        ((Fits.queueFresh (by simp) (by simp) .woken).congr (iff_of_false hnot not_false))
    refine ⟨?_, hletGo.trans (st.setRunnable_letGo me .woken).symm⟩
    show (st.setRunnable me .woken).Good _ (st.setRunnable me .woken).holder
    rw [setRunnable_holder]
    exact hqueue

theorem Sound.spawned (hphase : phase me = .absent) :
    (s.spawned me).Sound (update phase me .unborn) := by
  have hl := h.lock
  simp only [Scheduler.spawned]
  generalize s.lock = s at hl ⊢
  have hslot : s.slot me = none := hl.good.slot_none hphase
  split
  · exact ⟨hl.good.absentee hme hslot (phase_of_ne _ _ _), hl.letGo_eq⟩
  · have hinsert : (s.insertSlot me).Good (update phase me .unborn) s.holder :=
      hl.good.insertSlot hme hslot (phase_of_ne _ _ _) (fun _ _ => Iff.rfl) (by simp)
    have hnot := hl.good.not_held hme hslot
    have hqueue : ((s.insertSlot me).setRunnable me .woken).Held
        (update phase me .unborn) := by
      rw [State.Held, setRunnable_holder]
      exact hinsert.setRunnable (State.slot_insertSlot_of_none hslot) rfl (fun _ _ => rfl)
        (fun _ _ => Iff.rfl)
        ((Fits.queueFresh (by simp) (by simp) .woken).congr (iff_of_false hnot not_false))
    refine ⟨hqueue.grantIfIdle, ?_⟩
    show s.letGo = (State.grantIfIdle _).threads.count (·.letGo)
    rw [State.grantIfIdle_letGo, State.setRunnable_letGo, State.insertSlot_letGo]
    exact hl.letGo_eq

theorem Sound.started (hphase : phase me = .unborn) :
    (s.started me).1.Sound (update phase me (parkedIf (s.started me).2)) := by
  have hl := h.lock
  simp only [Scheduler.started]
  generalize s.lock = s at hl ⊢
  split
  · next hskip =>
    simp only [Bool.and_eq_true, Bool.not_eq_true', bne_iff_ne] at hskip
    obtain ⟨⟨-, hrunnable⟩, hholder⟩ := hskip
    refine ⟨hl.good.regard hme (phase_of_ne _ _ _) (fun _ _ => Iff.rfl) ?_ ?_, hl.letGo_eq⟩
    · intro slot hslot hfits
      rw [hphase] at hfits
      have hnone : slot.runnable = none := by
        have hget : s.slot me = some slot := hslot
        simpa [State.isRunnable, hget] using hrunnable
      rw [update_self]
      exact hfits.start hholder hnone
    · exact fun heq => absurd heq hholder
  · refine ⟨?_, hl.letGo_eq.trans (s.insertSlot_letGo me).symm⟩
    show (s.insertSlot me).Good _ s.holder
    cases hslot : s.slot me with
    | none =>
      exact hl.good.insertSlot hme hslot (phase_of_ne _ _ _) (fun _ _ => Iff.rfl)
        (by simp [parkedIf])
    | some slot =>
      rw [State.insertSlot_of_some hslot]
      refine hl.good.regard hme (phase_of_ne _ _ _) (fun _ _ => Iff.rfl) ?_ ?_
      · intro slot' _ hfits
        have hmark : slot'.outside = none := by
          by_contra hm
          have hrunning := (hfits.marked (Option.isSome_iff_ne_none.mpr hm)).2.1
          simp [hphase] at hrunning
        rw [update_self]
        exact hfits.park hmark
      · exact fun _ => Option.isSome_iff_exists.mpr ⟨slot, hslot⟩

theorem Sound.running
    (hphase : phase me = .absent ∨ phase me = .running) : s.Sound (update phase me .running) := by
  rcases hphase with hphase | hphase
  · have hslot : s.slot me = none := h.good.slot_none hphase
    exact ⟨h.good.absentee hme hslot (phase_of_ne _ _ _), h.letGo_eq⟩
  · rwa [← hphase, update_eq_self]

end

theorem Sound.unspawned (hphase : phase me = .unborn)
    (hholder : s.holder ≠ some me) : (s.unspawned me).Sound (update phase me .absent) := by
  have htake := s.lock.takeRunnable_quiet me
  have hgood := htake.good _ _ h.lock.good
  have hholder' : s.lock.holder ≠ some me := by rwa [lock_toState]
  have hown : ∀ slot, (s.lock.takeRunnable me).1.threads.get? me = some slot →
      slot.runnable = none ∧ slot.blocked = none ∧ slot.letGo = false := by
    intro slot hslot
    have hfits := hgood.fits me slot hslot
    rw [hphase] at hfits
    refine ⟨State.slot_takeRunnable hslot, ?_, ?_⟩
    · by_contra hb
      simpa using hfits.waits (Option.isSome_iff_ne_none.mpr hb)
    · by_contra hl
      exact hfits.born (by simpa using hl) rfl
  constructor
  case good =>
    show Good _ (s.lock.takeRunnable me).1.holder _ _ _
    rw [htake.holder]
    exact hgood.erase (fun slot hslot => ⟨(hown slot hslot).1, (hown slot hslot).2.1⟩)
      (phase_of_ne _ _ _) (fun _ _ => Iff.rfl) hholder'
  case letGo_eq =>
    show s.lock.letGo = ((s.lock.takeRunnable me).1.threads.erase me).count _
    rw [count_erase fun slot hslot => (hown slot hslot).2.2, htake.letGo]
    exact h.lock.letGo_eq

theorem Sound.detachThread (hme : me ≠ external)
    (hphase : phase me = .absent ∨ phase me = .running) :
    (s.detachThread me).Sound (update phase me .running) := by
  have hl := (h.running hme hphase).lock
  generalize update phase me .running = phase at hl ⊢
  simp only [Scheduler.detachThread]
  generalize s.lock = s at hl ⊢
  -- the slot is cleared first, then the baton is let go of and mutexes are disowned
  let f : Slot → Slot := fun slot => { slot with latch := none }
  have hforget : ∀ st : State, Quiet st (st.modify me f) := fun st =>
    Quiet.touch st me (fun _ _ _ hfits => hfits.forget) (fun _ => rfl) (fun _ => rfl)
      (fun _ => rfl) fun _ hfree => ⟨⟨hfree.outside, hfree.runnable, rfl⟩, hfree.blocked⟩
  have hclear := ((s.takeRunnable_quiet me).trans (State.takeBlocked_quiet _ me)).trans (hforget _)
  generalize hst : (((s.takeRunnable me).1.takeBlocked me).1.modify me f) = st at hclear ⊢
  have hgranted : ∀ slot, st.slot me = some slot → slot.granted = false := by
    intro slot hslot
    rw [← hst, State.slot_modify, Option.map_eq_some_iff] at hslot
    obtain ⟨old, -, rfl⟩ := hslot
    rw [if_pos rfl]
    rfl
  have hdisown := st.disown_quiet me
  have hboth := hclear.trans hdisown
  split
  · split
    · exact hl.wake hboth
    · exact hl.quiet hboth
  · next hholder =>
    have hheld : s.holder = some me := hboth.holder ▸ not_not.mp hholder
    have hvacant : st.Good phase none := by
      refine (hclear.good _ _ hl.good).regard hme (fun _ _ => rfl) ?_ ?_ ?_
      · intro t hne
        simp [hheld, Ne.symm hne]
      · intro slot hslot hfits
        exact (hfits.handOn (hgranted slot hslot)).congr (by simp)
      · intro heq
        cases heq
    exact Keeps.handOn (s := s.withState (st.disown me).1)
      ⟨hdisown.good _ _ hvacant, hl.letGo_eq.trans hboth.letGo.symm⟩

end

theorem letGo_remove {letGo : Nat} (h : letGo = st.threads.count (·.letGo)) (me : Nat) :
    (if (st.slot me).any (·.letGo) then letGo - 1 else letGo)
      = (st.remove me).threads.count (·.letGo) := by
  show _ = (st.threads.erase me).count (·.letGo)
  cases hslot : st.slot me with
  | none =>
    have hget : st.threads.get? me = none := hslot
    rw [count_erase (by simp [hget]), Option.any_none, if_neg Bool.false_ne_true]
    exact h
  | some slot =>
    have hcount := count_erase_of_some hslot fun slot => slot.letGo
    rw [Option.any_some]
    cases hletGo : slot.letGo with
    | false =>
      rw [hletGo, Bool.toNat_false] at hcount
      rw [if_neg Bool.false_ne_true]
      omega
    | true =>
      rw [hletGo, Bool.toNat_true] at hcount
      rw [if_pos rfl]
      omega

theorem Sound.exit (h : s.Sound phase) (me : Nat) (root : Bool) :
    (s.exit me root).Sound (update phase me .absent) := by
  have hl := h.lock
  simp only [Scheduler.exit]
  generalize s.lock = s at hl ⊢
  have hroots : Quiet s.toState
      (if root then { s.toState with roots := s.roots - 1 } else s.toState) := by
    split
    · exact Quiet.of_eq rfl rfl rfl rfl
    · exact Quiet.refl s.toState
  generalize (if root then { s.toState with roots := s.roots - 1 } else s.toState) = st₀ at hroots ⊢
  have hsettle := hroots.trans (st₀.settleRepoll_quiet me none)
  generalize st₀.settleRepoll me none = st₁ at hsettle ⊢
  have hexited : Quiet s.toState
      { st₁ with exited := if me ∈ st₁.exited then st₁.exited else me :: st₁.exited } :=
    hsettle.trans (Quiet.of_eq rfl rfl rfl rfl)
  generalize
    ({ st₁ with exited := if me ∈ st₁.exited then st₁.exited else me :: st₁.exited } : State)
    = st₂ at hexited ⊢
  have hclear := (hexited.trans (st₂.takeRunnable_quiet me)).trans (State.takeBlocked_quiet _ me)
  have hidle : ∀ slot, ((st₂.takeRunnable me).1.takeBlocked me).1.slot me = some slot →
      slot.runnable = none ∧ slot.blocked = none := by
    intro slot hslot
    obtain ⟨hblocked, old, hold, rfl⟩ := State.slot_takeBlocked hslot
    exact ⟨(State.slot_takeRunnable hold :), hblocked⟩
  generalize ((st₂.takeRunnable me).1.takeBlocked me).1 = st at hclear hidle ⊢
  have hletGo := letGo_remove (hl.letGo_eq.trans hclear.letGo.symm) me
  -- the wakes of joiners and of those who wait for its mutexes find the slot gone
  have hwakes := ((st.remove me).disown_quiet me).trans
    (State.wakeKey_quiet _ (.exit me) everyone .woken)
  have hcount : ∀ s' : Scheduler,
      s'.letGo = (if (st.slot me).any (·.letGo) then s.letGo - 1 else s.letGo) →
      s'.letGo = ((((st.remove me).disown me).1.wakeKey (.exit me) everyone .woken).1).threads.count
        (·.letGo) := fun s' hs' => (hs'.trans hletGo).trans hwakes.letGo.symm
  have hholder := hwakes.holder.trans hclear.holder
  have hs' : (if (st.slot me).any (·.letGo) then { s with letGo := s.letGo - 1 } else s).letGo
      = (if (st.slot me).any (·.letGo) then s.letGo - 1 else s.letGo) := by
    split <;> rfl
  generalize (if (st.slot me).any (·.letGo) then { s with letGo := s.letGo - 1 } else s) =
    s' at hs' ⊢
  split
  · next hheld =>
    have hgone : (st.remove me).Good (update phase me .absent) none := by
      refine (hclear.good _ _ hl.good).erase hidle (phase_of_ne _ _ _) ?_ nofun
      intro t hne
      rw [← hholder, hheld]
      simp [Ne.symm hne]
    exact Keeps.handOn (s := s'.withState _) ⟨hwakes.good _ _ hgone, hcount s' hs'⟩
  · next hother =>
    have hgone : (st.remove me).Good (update phase me .absent) s.holder :=
      (hclear.good _ _ hl.good).erase hidle (phase_of_ne _ _ _) (fun _ _ => Iff.rfl)
        (by rwa [← hholder])
    have hnow : State.Held (((st.remove me).disown me).1.wakeKey (.exit me) everyone .woken).1
        (update phase me .absent) := by
      rw [State.Held, hholder]
      exact hwakes.good _ _ hgone
    exact Keeps.grantIfIdle (s := s'.withState _) ⟨hnow, hcount s' hs'⟩

/-! ## Waiting -/

theorem update_parked (phase : Nat → Phase) (me : Nat) :
    ∀ t ≠ me, update phase me .parked t = update phase me .running t :=
  fun t hne => by rw [phase_of_ne _ _ _ t hne, phase_of_ne _ _ _ t hne]

theorem Sound.attachThread (h : s.Sound phase) (hme : me ≠ external)
    (hphase : phase me = .absent ∨ phase me = .running)
    (hsettled : ∀ slot, s.slot me = some slot → slot.Settled) :
    (s.attachThread me).1.Sound (update phase me (parkedIf (s.attachThread me).2)) := by
  have hl := (h.running hme hphase).lock
  replace hsettled : ∀ slot, s.lock.slot me = some slot → slot.Settled := by rwa [lock_toState]
  simp only [Scheduler.attachThread]
  generalize s.lock = s at hl hsettled ⊢
  -- with or without a slot before, it has a settled one now
  have hinsert : (s.insertSlot me).Good (update phase me .running) s.holder
      ∧ ∃ slot, (s.insertSlot me).slot me = some slot ∧ slot.Settled := by
    cases hslot : s.slot me with
    | none =>
      refine ⟨hl.good.insertSlot hme hslot (fun _ _ => rfl) (fun _ _ => Iff.rfl) (by simp), {}, ?_⟩
      exact ⟨State.slot_insertSlot_of_none hslot, rfl, rfl, rfl⟩
    | some slot =>
      rw [State.insertSlot_of_some hslot]
      exact ⟨hl.good, slot, hslot, hsettled slot hslot⟩
  obtain ⟨hgood, slot, hslot, hslotSettled⟩ := hinsert
  have hletGo : s.letGo = (s.insertSlot me).threads.count (·.letGo) :=
    hl.letGo_eq.trans (s.insertSlot_letGo me).symm
  split
  · exact ⟨hgood, hletGo⟩
  · next hother =>
    have hfits := hgood.fits me slot hslot
    rw [update_self] at hfits
    have hqueue : ((s.insertSlot me).setRunnable me .woken).Held
        (update phase me .parked) := by
      rw [State.Held, setRunnable_holder]
      refine hgood.setRunnable hslot hslotSettled.runnable (update_parked _ _)
        (fun _ _ => Iff.rfl) ?_
      rw [update_self]
      exact (hfits.queue hslotSettled .woken).congr (iff_of_false hother not_false)
    refine ⟨hqueue.grantIfIdle, ?_⟩
    show s.letGo = (State.grantIfIdle _).threads.count (·.letGo)
    rw [State.grantIfIdle_letGo, State.setRunnable_letGo]
    exact hletGo

theorem Sound.waitOutside (h : s.Sound phase) (hme : me ≠ external)
    (hphase : phase me = .absent ∨ phase me = .running) (key : DetKey)
    (hcare : ∀ slot, s.slot me = some slot → slot.letGo →
      s.holder ≠ some me ∧ slot.runnable = none) :
    (s.waitOutside me key).Sound (update phase me .running) := by
  have hl := (h.running hme hphase).lock
  replace hcare : ∀ slot, s.lock.slot me = some slot → slot.letGo →
      s.lock.holder ≠ some me ∧ slot.runnable = none := by rwa [lock_toState]
  simp only [Scheduler.waitOutside]
  generalize s.lock = s at hl hcare ⊢
  split
  · next hmark =>
    let f : Slot → Slot := fun slot => { slot with outside := some key }
    have hcount : (s.threads.modify me f).count (·.letGo) = s.threads.count (·.letGo) :=
      s.threads.count_modify_eq me fun _ => rfl
    refine ⟨?_, hl.letGo_eq.trans hcount.symm⟩
    refine hl.good.touch ?_ (fun _ => rfl) fun _ => rfl
    intro slot hslot hfits
    have hslot' : s.slot me = some slot := hslot
    have hletGo : slot.letGo := by simpa [hslot'] using hmark
    obtain ⟨hholder, hrunnable⟩ := hcare slot hslot hletGo
    rw [update_self] at hfits ⊢
    exact hfits.mark hletGo hholder hrunnable key
  · exact hl

variable {slot : Slot}

theorem takeLetGo_of_mark (hslot : s.slot me = some slot) (hmark : slot.letGo) :
    s.takeLetGo me = (s.clearLetGo me, true) := by
  simp [Scheduler.takeLetGo, hslot, hmark]

theorem takeLetGo_of_no_mark (h : (s.slot me).any (·.letGo) = false) :
    s.takeLetGo me = (s, false) := by
  simp [Scheduler.takeLetGo, h]

theorem letGo_clear (h : s.letGo = s.threads.count (·.letGo))
    (hslot : s.slot me = some slot) (hmark : slot.letGo) :
    (s.clearLetGo me).letGo = (s.clearLetGo me).threads.count (·.letGo) := by
  have hcount := count_modify hslot
    (fun slot => { slot with letGo := false }) fun slot => slot.letGo
  rw [hmark, Bool.toNat_true, Bool.toNat_false] at hcount
  show s.letGo - 1 = (s.threads.modify me _).count (·.letGo)
  omega

theorem slot_clearLetGo (hslot : s.slot me = some slot) :
    (s.clearLetGo me).slot me = some { slot with letGo := false } :=
  State.slot_modify_of_slot _ hslot

theorem any_letGo_eq_false (h : ¬ ∃ slot, s.slot me = some slot ∧ slot.letGo) :
    (s.slot me).any (·.letGo) = false := by
  cases hslot : s.slot me with
  | none => rfl
  | some slot =>
    by_contra hletGo
    exact h ⟨slot, hslot, by simpa using hletGo⟩

theorem Sound.clearLetGo (h : s.Sound (update phase me .running))
    (hslot : s.slot me = some slot) (hmark : slot.letGo) (hsettled : slot.Settled) :
    (s.clearLetGo me).Sound (update phase me .running) := by
  refine ⟨?_, letGo_clear h.letGo_eq hslot hmark⟩
  refine h.good.touch ?_ (fun _ => rfl) fun _ => rfl
  intro slot' hslot' hfits
  have hsame : slot = slot' := Option.some.inj (hslot.symm.trans hslot')
  subst hsame
  rw [update_self] at hfits ⊢
  exact hfits.clearLetGo hsettled

theorem free_of_settled {phase : Nat → Phase} {holder : Option Nat}
    (h : st.Good (update phase me .running) holder) (hslot : st.slot me = some slot)
    (hsettled : slot.Settled) : slot.Free := by
  have hfits := h.fits me slot hslot
  rw [update_self] at hfits
  exact ⟨hsettled, hfits.not_blocked⟩

theorem Sound.park (h : s.Sound (update phase me .running))
    (hholder : s.holder = some me) (hquiet : Quiet s.toState st)
    (hfree : ∃ slot, st.slot me = some slot ∧ slot.Free) (b : Blocked) (outlooks : List Outlook) :
    ((s.withState { st.setBlocked me b with holder := none }).dispatch outlooks).Sound
      (update phase me .parked) := by
  obtain ⟨slot, hslot, hslotFree⟩ := hfree
  refine Keeps.dispatch ⟨?_, ?_⟩ rfl outlooks
  · refine (hquiet.good _ _ h.good).setBlocked hslot hslotFree.blocked (update_parked _ _) ?_ ?_
    · intro t hne
      simp [hholder, Ne.symm hne]
    · rw [update_self]
      exact (Fits.block hslotFree.toSettled _ _).congr (by simp)
  · show s.letGo = (st.setBlocked me b).threads.count (·.letGo)
    rw [State.setBlocked_letGo, hquiet.letGo]
    exact h.letGo_eq

theorem Sound.blockHolding (h : s.Sound (update phase me .running))
    (hholder : s.holder = some me) (hslot : s.slot me = some slot)
    (hfree : slot.Free) (b : Blocked) (mem : Memory) (outlooks : List Outlook) :
    (s.blockHolding me b mem outlooks).1.Sound
      (update phase me (parkedIf (s.blockHolding me b mem outlooks).2)) := by
  have htake := s.takeForeign_quiet
  have hlt : s.takeForeign.Sound (update phase me .running) := by
    rw [Sound, htake.holder]
    exact Keeps.takeForeign h
  simp only [Scheduler.blockHolding]
  generalize s.takeForeign = s' at htake hlt ⊢
  -- the key's place in the table of outside wakes is cleared
  let s'' : Scheduler := { s' with foreign := (s'.foreign.remove b.key).1 }
  have hforeign : Quiet s'.toState s''.toState := Quiet.of_eq rfl rfl rfl rfl
  have hsound : s''.Sound (update phase me .running) := { hlt with }
  split
  · exact hsound
  · have hsettle := s''.settleRepoll_quiet me (some b.key)
    have hown := ((htake.trans hforeign).trans hsettle).free me slot hslot hfree
    exact hsound.park (htake.holder.trans hholder) hsettle hown b outlooks

section

variable (h : s.Sound phase)
include h

theorem Sound.block (hme : me ≠ external) (hphase : phase me = .absent ∨ phase me = .running)
    (hsettled : ∀ slot, s.slot me = some slot → slot.Settled) (b : Blocked) (mem : Memory)
    (outlooks : List Outlook) : (s.block me b mem outlooks).1.Sound
      (update phase me (parkedIf (s.block me b mem outlooks).2)) := by
  have hl := (h.running hme hphase).lock
  replace hsettled : ∀ slot, s.lock.slot me = some slot → slot.Settled := by rwa [lock_toState]
  simp only [Scheduler.block]
  generalize s.lock = s at hl hsettled ⊢
  by_cases hholder : s.holder = some me
  · -- it holds the baton
    rw [if_neg (not_not.mpr hholder)]
    simp only [Bool.false_and, Bool.false_eq_true, if_false]
    split
    · exact hl
    next hgo =>
      obtain ⟨slot, hslot⟩ : ∃ slot, s.slot me = some slot := by
        rw [← Option.isSome_iff_exists]
        by_contra hnone
        simp [Option.not_isSome_iff_eq_none.mp hnone] at hgo
      have hfree := free_of_settled hl.good hslot (hsettled slot hslot)
      exact hl.blockHolding hholder hslot hfree b mem outlooks
  · rw [if_pos hholder]
    by_cases hmark : ∃ slot, s.slot me = some slot ∧ slot.letGo
    · -- it was let go: the mark goes, and it waits again unless the schedule is detached still
      obtain ⟨slot, hslot, hletGo⟩ := hmark
      have hclear := hl.clearLetGo hslot hletGo (hsettled slot hslot)
      have hslot' := slot_clearLetGo hslot
      have hholder' : (s.clearLetGo me).holder ≠ some me := hholder
      rw [takeLetGo_of_mark hslot hletGo]
      generalize s.clearLetGo me = s' at hclear hslot' hholder' ⊢
      split
      · have hsettled' : ({ slot with letGo := false } : Slot).Settled :=
          { hsettled slot hslot with }
        have hfree := free_of_settled hclear.good hslot' hsettled'
        have hwait : (s'.setBlocked me b).Held (update phase me .parked) := by
          rw [State.Held, setBlocked_holder]
          refine hclear.good.setBlocked hslot' hfree.blocked (update_parked _ _)
            (fun _ _ => Iff.rfl) ?_
          rw [update_self]
          exact (Fits.block hsettled' _ _).congr (iff_of_false hholder' not_false)
        exact ⟨hwait, hclear.letGo_eq.trans (s'.setBlocked_letGo me b).symm⟩
      · rw [if_pos (by simp [hholder'])]
        exact hclear
    · rw [takeLetGo_of_no_mark (any_letGo_eq_false hmark)]
      simp only [Bool.false_and, Bool.false_eq_true, if_false]
      rw [if_pos (by simp [hholder])]
      exact hl

theorem Sound.yieldNow (hme : me ≠ external) (hphase : phase me = .absent ∨ phase me = .running)
    (hsettled : ∀ slot, s.slot me = some slot → slot.Settled) (outlooks : List Outlook) :
    (s.yieldNow me outlooks).1.Sound (update phase me (parkedIf (s.yieldNow me outlooks).2)) := by
  have hl := (h.running hme hphase).lock
  replace hsettled : ∀ slot, s.lock.slot me = some slot → slot.Settled := by rwa [lock_toState]
  simp only [Scheduler.yieldNow]
  generalize s.lock = s at hl hsettled ⊢
  split
  · exact hl
  next hholder =>
    replace hholder : s.holder = some me := not_not.mp hholder
    have hsettle := s.settleRepoll_quiet me none
    have htake := hsettle.trans (s.withState (s.settleRepoll me none)).takeForeign_quiet
    have hlt := hl.quiet hsettle
    have hsound : (s.withState (s.settleRepoll me none)).takeForeign.Sound
        (update phase me .running) := by
      rw [Sound, takeForeign_quiet _ |>.holder]
      exact Keeps.takeForeign hlt
    generalize (s.withState (s.settleRepoll me none)).takeForeign = s' at htake hsound ⊢
    split
    · exact hsound
    next hgo =>
      -- it is still as it was: none of the wakes was for it
      obtain ⟨slot, hslot⟩ : ∃ slot, s.slot me = some slot :=
        Option.isSome_iff_exists.mp (hl.good.held me hholder hme)
      have hfree := free_of_settled hl.good hslot (hsettled slot hslot)
      obtain ⟨slot', hslot', hfree'⟩ := htake.free me slot hslot hfree
      have hfits := hsound.good.fits me slot' hslot'
      rw [update_self] at hfits
      refine Keeps.dispatch ⟨?_, ?_⟩ rfl outlooks
      · refine hsound.good.setRunnable hslot' hfree'.runnable (update_parked _ _) ?_ ?_
        · intro t hne
          rw [htake.holder, hholder]
          simp [Ne.symm hne]
        · rw [update_self]
          exact (hfits.queue hfree'.toSettled .woken).congr (by simp)
      · show s'.letGo = (s'.setRunnable me .woken).threads.count (·.letGo)
        rw [State.setRunnable_letGo]
        exact hsound.letGo_eq

theorem Sound.rejoin (hme : me ≠ external) (hphase : phase me = .absent ∨ phase me = .running) :
    (s.rejoin me).1.Sound (update phase me (parkedIf (s.rejoin me).2)) := by
  have hr := h.running hme hphase
  simp only [Scheduler.rejoin]
  split
  · exact hr
  have hl := hr.lock
  generalize s.lock = s at hl ⊢
  let f : Slot → Slot := fun slot => { slot with outside := none }
  have hunmark : Quiet s.toState (s.modify me f) :=
    Quiet.touch s.toState me (fun _ _ _ hfits => hfits.unmark) (fun _ => rfl) (fun _ => rfl)
      (fun _ => rfl) fun _ hfree => ⟨⟨rfl, hfree.runnable, hfree.granted⟩, hfree.blocked⟩
  have hmark : ∀ slot, (s.withState (s.modify me f)).slot me = some slot → slot.outside = none := by
    intro slot hslot
    obtain ⟨old, -, rfl⟩ := Option.map_eq_some_iff.mp ((s.slot_modify me f me).symm.trans hslot)
    rw [if_pos rfl]
  replace hl := hl.quiet hunmark
  generalize s.withState (s.modify me f) = s at hl hmark ⊢
  split
  · exact hl
  by_cases hletGo : ∃ slot, s.slot me = some slot ∧ slot.letGo
  · obtain ⟨slot, hslot, hletGo⟩ := hletGo
    have hfits := hl.good.fits me slot hslot
    rw [update_self] at hfits
    have hslot' := slot_clearLetGo hslot
    have hcount := letGo_clear hl.letGo_eq hslot hletGo
    -- the mark goes as the thread parks
    have hpark : (s.clearLetGo me).toState.Good (update phase me .parked) s.holder := by
      refine hl.good.modify hslot (update_parked _ _) (fun _ _ => Iff.rfl) ?_ rfl rfl
      rw [update_self]
      exact hfits.rejoin (hmark slot hslot)
    have hholder' : (s.clearLetGo me).holder = s.holder := rfl
    rw [takeLetGo_of_mark hslot hletGo]
    simp only [Bool.not_true, Bool.false_eq_true, if_false]
    generalize s.clearLetGo me = s' at hslot' hcount hpark hholder' ⊢
    split
    · next hother =>
      rw [hholder'] at hother
      have hheld : (s'.setRunnableIfNot me .woken).Held (update phase me .parked) := by
        simp only [State.setRunnableIfNot]
        split
        · next hnot =>
          replace hnot : slot.runnable = none := by simpa [hslot'] using hnot
          have hfits' := hpark.fits me _ hslot'
          rw [update_self] at hfits'
          rw [State.Held, setRunnable_holder, hholder']
          refine hpark.setRunnable hslot' hnot (fun _ _ => rfl) (fun _ _ => Iff.rfl) ?_
          rw [update_self]
          exact hfits'.enqueue hother hfits.not_blocked (hfits.not_granted hother) .woken
        · rw [State.Held, hholder']
          exact hpark
      have hletGo' : (s'.setRunnableIfNot me .woken).threads.count (·.letGo)
          = s'.threads.count (·.letGo) := by
        simp only [State.setRunnableIfNot]
        split
        · exact s'.setRunnable_letGo me .woken
        · rfl
      refine ⟨hheld.grantIfIdle, ?_⟩
      show s'.letGo = (State.grantIfIdle _).threads.count (·.letGo)
      rw [State.grantIfIdle_letGo, hletGo']
      exact hcount
    · refine ⟨?_, hcount⟩
      rw [hholder']
      exact hpark
  · rw [takeLetGo_of_no_mark (any_letGo_eq_false hletGo)]
    exact hl

theorem Sound.setSpinner (me : Nat) (spinner : Option Bool) :
    (s.withState (s.modify me fun slot => { slot with spinner })).Sound phase :=
  h.quiet (Quiet.touch s.toState me (fun _ _ _ hfits => hfits.spinner spinner) (fun _ => rfl)
    (fun _ => rfl) (fun _ => rfl) fun _ hfree => { hfree with })

theorem Sound.spin (me : Nat) (clock : Bool) : (s.spin me clock).Sound phase := by
  simp only [Scheduler.spin]
  split
  · exact h.lock
  · exact h.lock.setSpinner me (some clock)

theorem Sound.resume (hphase : phase me = .parked) (outlooks : List Outlook) :
    (s.resume me outlooks).1.Sound (update phase me (parkedIf !(s.resume me outlooks).2)) := by
  have hsame : update phase me .parked = phase := by rw [← hphase, update_eq_self]
  let f : Slot → Slot := fun slot => { slot with latch := none }
  simp only [Scheduler.resume]
  split
  · show s.Sound (update phase me .parked)
    rwa [hsame]
  next grant hgrant =>
    obtain ⟨slot, hslot, hlatch⟩ := Option.bind_eq_some_iff.mp hgrant
    cases grant with
    | run why =>
      have hfits := h.good.fits me slot hslot
      rw [hphase] at hfits
      refine ⟨?_, h.letGo_eq.trans (s.threads.count_modify_eq me (f := f) fun _ => rfl).symm⟩
      refine h.good.modify hslot (phase_of_ne _ _ _) (fun _ _ => Iff.rfl) ?_ rfl rfl
      rw [update_self]
      exact hfits.resume (by simp [Slot.granted, hlatch])
    | dispatch =>
      have hforget : Quiet s.toState (s.modify me f) :=
        Quiet.touch s.toState me (fun _ _ _ hfits => hfits.forget) (fun _ => rfl) (fun _ => rfl)
          (fun _ => rfl) fun _ hfree => ⟨⟨hfree.outside, hfree.runnable, rfl⟩, hfree.blocked⟩
      have hl := (h.quiet hforget).lock
      show Sound _ (update phase me .parked)
      rw [hsame]
      dsimp only
      generalize (s.withState (s.modify me f)).lock = s' at hl ⊢
      split
      · next hvacant =>
        replace hvacant : s'.holder = none := Option.isNone_iff_eq_none.mp hvacant
        exact Keeps.dispatch (hvacant ▸ hl) hvacant outlooks
      · exact hl

end

end Scheduler

end Snare.Sched
