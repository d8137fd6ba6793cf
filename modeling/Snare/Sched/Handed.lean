import Snare.Sched.Baton
import Snare.Sched.Dispatch
import Snare.Sched.Stirs

/-!
# No runnable thread waits for ever

A section that lets go of the baton with a thread runnable hands it on, or leaves a dispatcher
behind that will: `Floor` adds to the schedule how many dispatchers have let go of the lock and will
take it again.

* **`Baton.dispatch`**: the rounds end with the baton granted, with nobody to grant it to, or with a
  dispatcher left behind;
* **`Floor.baton_handed`**: along every run in which a thread the OS failed to create does not hold
  the baton, and **`Floor.runnable_stranded`** where it does.
-/

namespace Snare.Sched

open SortedMap
open Scheduler (apply dispatchFrom lock_toState)

/-! ## Where the baton is -/

/-- The baton is with the executive or a thread that has a slot; or nobody has it, and then nobody
is runnable or a dispatcher is about. -/
structure Baton (st : State) (dispatchers : Nat) : Prop where
  held : ∀ t, st.holder = some t → t = external ∨ (st.slot t).isSome
  idle : st.holder = none → ∀ t, st.isRunnable t → 0 < dispatchers

/-- The second state is the first with nobody made runnable and no slot gone. -/
structure Still (st st' : State) : Prop where
  holder : st'.holder = st.holder
  slots : ∀ t, (st.slot t).isSome → (st'.slot t).isSome
  runnable : ∀ t, st'.isRunnable t → st.isRunnable t

namespace Still

variable (st : State)

theorem refl : Still st st := ⟨rfl, fun _ h => h, fun _ h => h⟩

theorem trans {st₁ st₂ st₃ : State} (h₁ : Still st₁ st₂) (h₂ : Still st₂ st₃) : Still st₁ st₃ :=
  ⟨h₂.holder.trans h₁.holder, fun t h => h₂.slots t (h₁.slots t h),
    fun t h => h₁.runnable t (h₂.runnable t h)⟩

theorem of_slots {st st' : State} {f : Nat → Slot → Slot}
    (hslots : ∀ t, st'.slot t = (st.slot t).map (f t)) (hholder : st'.holder = st.holder)
    (hrunnable : ∀ t slot, (f t slot).runnable.isSome → slot.runnable.isSome) : Still st st' := by
  refine ⟨hholder, fun t h => ?_, fun t h => ?_⟩
  · rw [hslots, Option.isSome_map]
    exact h
  · simp only [State.isRunnable, hslots, Option.any_map] at h ⊢
    obtain ⟨slot, hslot, hsome⟩ := (Option.any_eq_true _ _).mp h
    rw [hslot]
    exact hrunnable t slot hsome

theorem of_eq {st st' : State} (hthreads : st'.threads = st.threads)
    (hholder : st'.holder = st.holder) : Still st st' := by
  have hslot : ∀ t, st'.slot t = st.slot t := fun t => by rw [State.slot, State.slot, hthreads]
  refine ⟨hholder, fun t h => by rw [hslot]; exact h, fun t h => ?_⟩
  rwa [State.isRunnable, hslot] at h

theorem modify (t : Nat) {f : Slot → Slot}
    (hrunnable : ∀ slot, (f slot).runnable.isSome → slot.runnable.isSome) :
    Still st (st.modify t f) := by
  refine of_slots (st.slot_modify t f) rfl fun t' slot h => ?_
  split at h
  · exact hrunnable slot h
  · exact h

theorem takeRunnable (t : Nat) : Still st (st.takeRunnable t).1 := by
  unfold State.takeRunnable
  split
  · exact refl st
  · have h := modify st t (f := fun slot => { slot with runnable := none }) fun _ h => by simp at h
    exact { h with }

theorem takeBlocked (t : Nat) : Still st (st.takeBlocked t).1 := by
  unfold State.takeBlocked
  split
  · exact refl st
  · have h := modify st t (f := fun slot => { slot with blocked := none }) fun _ h => h
    exact { h with }

theorem setBlocked (t : Nat) (b : Blocked) : Still st (st.setBlocked t b) := by
  unfold State.setBlocked
  split
  · exact refl st
  · have h := modify st t (f := fun slot => { slot with blocked := some (b, st.nextWait) })
      fun _ h => h
    exact { h with }

theorem insertSlot (t : Nat) : Still st (st.insertSlot t) := by
  refine ⟨rfl, (Stirs.insertSlot st t).slots, fun t' h => ?_⟩
  simp only [State.isRunnable, State.slot_insertSlot] at h ⊢
  split at h
  · next heq =>
    subst heq
    cases hold : st.slot t' with
    | none => simp [hold] at h
    | some old => simpa [hold] using h
  · exact h

end Still

theorem Readied.still {why : DetWake} {st st' : State} (h : Readied why st st' []) :
    Still st st' := by
  refine .of_slots (f := fun _ slot => slot) (fun t => ?_) (by rw [h.rest]) fun _ _ h => h
  rw [h.slots t, if_neg (by simp), Option.map_id']

namespace State

variable {st : State}

theorem wakeKeyMatching_still {key : DetKey} {n : Nat} {why : DetWake}
    {hit : Blocked → Bool} (h : (st.wakeKeyMatching key n why hit).2 = 0) :
    Still st (st.wakeKeyMatching key n why hit).1 := by
  obtain ⟨ts, -, hlen, -, hready⟩ := st.wakeKeyMatching_readied key n why hit
  obtain rfl : ts = [] := List.length_eq_zero_iff.mp (hlen.symm.trans h)
  exact hready.still

theorem wakeOutsideOne_cases (key : DetKey) (n : Nat) (acc : State × Nat) (t : Nat) :
    wakeOutsideOne key n acc t = acc ∨ (wakeOutsideOne key n acc t).2 = acc.2 + 1 := by
  obtain ⟨st, woken⟩ := acc
  simp only [wakeOutsideOne]
  split
  · exact .inl rfl
  split
  · exact .inl rfl
  split
  · exact .inl rfl
  · exact .inr rfl

theorem wakeOutside_still {key : DetKey} {n : Nat} (h : (st.wakeOutside key n).2 = 0) :
    (st.wakeOutside key n).1 = st := by
  -- the count never falls, so it stays zero through the loop, and so does the state
  have hloop : ∀ (ts : List Nat) (acc : State × Nat),
      acc.2 ≤ (ts.foldl (wakeOutsideOne key n) acc).2
        ∧ ((ts.foldl (wakeOutsideOne key n) acc).2 = acc.2 →
          ts.foldl (wakeOutsideOne key n) acc = acc) := by
    intro ts
    induction ts with
    | nil => exact fun acc => ⟨le_refl _, fun _ => rfl⟩
    | cons t ts ih =>
      intro acc
      rw [List.foldl_cons]
      obtain ⟨hle, heq⟩ := ih (wakeOutsideOne key n acc t)
      rcases wakeOutsideOne_cases key n acc t with hsame | hmore
      · rw [hsame] at hle heq ⊢
        exact ⟨hle, heq⟩
      · exact ⟨by omega, fun hzero => by omega⟩
  have hsame := (hloop st.threads.keys (st, 0)).2 h
  exact congrArg Prod.fst hsame

theorem not_runnable_of_grantNext (h : st.grantNext = none) (t : Nat) :
    st.isRunnable t = false := by
  simp only [grantNext, Option.map_eq_none_iff, next, Option.or_eq_none_iff,
    List.find?_eq_none] at h
  rw [isRunnable]
  cases hslot : st.slot t with
  | none => rfl
  | some slot => simpa using h.2 (t, slot) (get?_eq_some_iff.mp hslot)

theorem grantNext_isSome {t : Nat} (h : st.isRunnable t) :
    ∃ st', st.grantNext = some st' := by
  cases hgrant : st.grantNext with
  | none =>
    rw [not_runnable_of_grantNext hgrant] at h
    exact absurd h (by decide)
  | some st' => exact ⟨st', rfl⟩

end State

namespace Baton

variable {st st' : State} {d : Nat}

theorem still (h : Baton st d) (hstill : Still st st') : Baton st' d where
  held t ht := (h.held t (hstill.holder ▸ ht)).imp id (hstill.slots t)
  idle hvacant t ht := h.idle (hstill.holder ▸ hvacant) t (hstill.runnable t ht)

theorem stirs (h : Baton st d) (hstirs : Stirs st st') (hholder : st.holder.isSome) :
    Baton st' d where
  held t ht := (h.held t (hstirs.holder ▸ ht)).imp id (hstirs.slots t)
  idle hvacant := by
    rw [← hstirs.holder, hvacant] at hholder
    exact absurd hholder (by decide)

theorem granted (h : st.grantNext = some st') : Baton st' d := by
  obtain ⟨t, slot, why, hget, -, rfl⟩ := State.grantNext_eq h
  refine ⟨?_, nofun⟩
  rintro t' ⟨⟩
  right
  show ((st.modify t _).slot t).isSome
  rw [State.slot_modify, Option.isSome_map, State.slot, hget]
  rfl

theorem unwanted (hvacant : st.holder = none) (h : ∀ t, st.isRunnable t = false) : Baton st d where
  held t ht := by
    rw [hvacant] at ht
    cases ht
  idle _ t ht := by
    rw [h t] at ht
    exact absurd ht (by decide)

theorem grantIfIdle (h : ∀ t, st.holder = some t → t = external ∨ (st.slot t).isSome) :
    Baton st.grantIfIdle d := by
  simp only [State.grantIfIdle]
  split
  · next hvacant =>
    cases hgrant : st.grantNext with
    | none => exact unwanted (by simpa using hvacant) (State.not_runnable_of_grantNext hgrant)
    | some st' => exact granted hgrant
  · next hheld =>
    refine ⟨h, fun hvacant => ?_⟩
    simp [hvacant] at hheld

theorem wake (h : Baton st d) (hstirs : Stirs st st') : Baton st'.grantIfIdle d :=
  grantIfIdle fun t ht => (h.held t (hstirs.holder ▸ ht)).imp id (hstirs.slots t)

theorem handOn (st : State) (d : Nat) : Baton st.handOn d := by
  simp only [State.handOn]
  cases hgrant : ({ st with holder := none } : State).grantNext with
  | some st' => exact granted hgrant
  | none =>
    have hnone := State.not_runnable_of_grantNext hgrant
    have hdelegate : Still { st with holder := none }
        ({ st with holder := none } : State).delegate := by
      simp only [State.delegate]
      split
      · exact .refl _
      · exact .modify _ _ fun _ h => h
    exact (unwanted (d := d) rfl hnone).still hdelegate

end Baton

/-! ## A dispatcher's rounds -/

theorem Baton.awaited {st : State} (hvacant : st.holder = none) (d : Nat) : Baton st (d + 1) where
  held t ht := by
    rw [hvacant] at ht
    cases ht
  idle _ _ _ := Nat.succ_pos d

/-- **A dispatcher's rounds.** They end with the baton granted, with nobody to grant it to, or with
the lock let go of for a while. -/
theorem Baton.dispatch {s : Scheduler} (hvacant : s.holder = none) (outlooks : List Outlook)
    (d : Nat) : Baton (s.dispatch outlooks).toState (d + (s.rests outlooks).toNat) := by
  induction outlooks generalizing s with
  | nil => exact awaited hvacant d
  | cons outlook rest ih =>
    have hvacant' : s.takeForeign.holder = none := s.takeForeign_quiet.holder.trans hvacant
    simp only [Scheduler.dispatch, Scheduler.rests]
    cases hgrant : s.takeForeign.grantNext with
    | some st => exact granted hgrant
    | none =>
      have hnone := State.not_runnable_of_grantNext hgrant
      dsimp only
      split
      · exact unwanted hvacant' hnone
      split
      · -- who is let go is not queued
        refine unwanted hvacant' fun t => ?_
        have hslot : s.takeForeign.detach.slot t = (s.takeForeign.slot t).map Scheduler.released :=
          get?_map _ _ _
        rw [State.isRunnable, hslot, Option.any_map]
        refine Eq.trans ?_ (hnone t)
        simp only [Scheduler.released_runnable, State.isRunnable]
      · obtain ⟨st, heq, hquiet⟩ := s.takeForeign.answer_quiet outlook.finding
        have hholder : (s.takeForeign.answer outlook.finding).1.holder = none := by
          rw [heq]
          exact hquiet.holder.trans hvacant'
        generalize s.takeForeign.answer outlook.finding = answered at hholder
        obtain ⟨s', more⟩ := answered
        cases more with
        | true => exact ih hholder
        | false => exact awaited hholder d

/-! ## The other sections

Each keeps the baton where it is, wakes and then grants, or hands the baton on. -/

namespace Baton

variable {s : Scheduler} {d me : Nat}

theorem lock (h : Baton s.toState d) : Baton s.lock.toState d := by rwa [lock_toState]

variable {st : State}

theorem withForeign (h : Baton st d) (foreign : ForeignKeys) :
    Baton { st with foreign } d :=
  h.still (.of_eq rfl rfl)

theorem taken {t : Nat} (hholder : st.holder = some t)
    (ht : t = external ∨ (st.slot t).isSome) : Baton st d where
  held t' ht' := by
    rw [hholder] at ht'
    cases ht'
    exact ht
  idle hvacant := by
    rw [hholder] at hvacant
    cases hvacant

section

variable (h : Baton s.toState d)
include h

theorem enterRoot (me : Nat) : Baton (s.enterRoot me).1.toState d := by
  have hlock := h.lock
  simp only [Scheduler.enterRoot]
  generalize s.lock = l at hlock ⊢
  split
  · refine taken rfl (.inr ?_)
    show ((l.insertSlot me).slot me).isSome
    simp [State.slot_insertSlot]
  · next hheld =>
    have hholder : l.holder.isSome := by
      simpa [State.insertSlot, Option.isSome_iff_ne_none] using hheld
    have hroot : Baton { l.insertSlot me with roots := (l.insertSlot me).roots + 1 } d :=
      (hlock.still (.insertSlot _ me)).still (.of_eq rfl rfl)
    exact hroot.stirs (.setRunnable _ me _) hholder

theorem spawned (child : Nat) : Baton (s.spawned child).toState d := by
  have hlock := h.lock
  simp only [Scheduler.spawned]
  generalize s.lock = l at hlock ⊢
  split
  · exact hlock
  · exact hlock.wake ((Stirs.insertSlot _ child).trans (.setRunnable _ child _))

theorem started (me : Nat) : Baton (s.started me).1.toState d := by
  have hlock := h.lock
  simp only [Scheduler.started]
  generalize s.lock = l at hlock ⊢
  split
  · exact hlock
  · exact hlock.still (.insertSlot _ me)

theorem unspawned {child : Nat} (hchild : s.holder ≠ some child) :
    Baton (s.unspawned child).toState d := by
  have hlock := h.lock
  rw [← s.lock_toState] at hchild
  simp only [Scheduler.unspawned]
  generalize s.lock = l at hlock hchild ⊢
  have htake := hlock.still (.takeRunnable _ child)
  have hholder : (l.takeRunnable child).1.holder = l.holder := (Still.takeRunnable _ child).holder
  have hslot : ∀ t, ((l.takeRunnable child).1.remove child).slot t
      = if t = child then none else (l.takeRunnable child).1.slot t :=
    fun t => get?_erase _ _ _
  refine ⟨fun t ht => (htake.held t ht).imp id fun hsome => ?_, fun hvacant t ht => ?_⟩
  · have hne : t ≠ child := by
      rintro rfl
      exact hchild (hholder.symm.trans ht)
    show (((l.takeRunnable child).1.remove child).slot t).isSome
    rwa [hslot, if_neg hne]
  · refine htake.idle hvacant t ?_
    change ((l.takeRunnable child).1.remove child).isRunnable t at ht
    rw [State.isRunnable, hslot] at ht
    split at ht
    · cases ht
    · exact ht

theorem attachThread (me : Nat) : Baton (s.attachThread me).1.toState d := by
  have hlock := h.lock
  simp only [Scheduler.attachThread]
  generalize s.lock = l at hlock ⊢
  split
  · exact hlock.still (.insertSlot _ me)
  · exact hlock.wake ((Stirs.insertSlot _ me).trans (.setRunnable _ me _))

end

theorem disown_still {me : Nat} (h : (st.disown me).2 = false) :
    (st.disown me).1 = st := by
  simp only [State.disown, Bool.not_eq_false', List.isEmpty_iff] at h ⊢
  rw [h]
  rfl

theorem detachThread (h : Baton s.toState d) (me : Nat) : Baton (s.detachThread me).toState d := by
  have hlock := h.lock
  simp only [Scheduler.detachThread]
  generalize s.lock = l at hlock ⊢
  have hout := ((hlock.still (.takeRunnable _ me)).still (.takeBlocked _ me)).still
    (.modify _ me (f := fun slot => { slot with latch := none }) fun _ h => h)
  generalize ((l.takeRunnable me).1.takeBlocked me).1.modify me _ = st at hout ⊢
  split
  · cases hdisowned : (st.disown me).2 with
    | true => exact hout.wake (st.disown_stirs me)
    | false =>
      rw [disown_still hdisowned]
      exact hout
  · exact handOn _ d

theorem exit (h : Baton s.toState d) (me : Nat) (root : Bool) :
    Baton (s.exit me root).toState d := by
  have hlock := h.lock
  simp only [Scheduler.exit]
  generalize s.lock = l at hlock ⊢
  have hroots : Still l.toState
      (if root then { l.toState with roots := l.roots - 1 } else l.toState) := by
    split
    · exact .of_eq rfl rfl
    · exact .refl _
  generalize (if root then { l.toState with roots := l.roots - 1 } else l.toState) = st₁ at hroots ⊢
  have hsettle := st₁.settleRepoll_stirs me none
  generalize st₁.settleRepoll me none = st₂ at hsettle ⊢
  generalize hexited : (if me ∈ st₂.exited then st₂.exited else me :: st₂.exited) = exited
  have hexit : Still st₂ { st₂ with exited } := .of_eq rfl rfl
  have htake := (hexit.trans (.takeRunnable _ me)).trans (.takeBlocked _ me)
  generalize ((({ st₂ with exited } : State).takeRunnable me).1.takeBlocked me).1 = st₃ at htake ⊢
  have hstirs := ((st₃.remove me).disown_stirs me).trans
    (State.wakeKey_stirs _ (.exit me) everyone .woken)
  split
  · exact handOn _ d
  · next hother =>
    -- whoever has the baton is another thread, and keeps its slot
    refine grantIfIdle fun t ht => ?_
    rw [hstirs.holder] at hother ht
    have hne : t ≠ me := by
      rintro rfl
      exact hother ht
    have hheld := hlock.held t
      ((hroots.holder.symm.trans (hsettle.holder.symm.trans htake.holder.symm)).trans ht)
    refine hheld.imp id fun hsome => hstirs.slots t ?_
    have hslot : (st₃.remove me).slot t = if t = me then none else st₃.slot t :=
      get?_erase _ _ _
    rw [hslot, if_neg hne]
    exact htake.slots t (hsettle.slots t (hroots.slots t hsome))

theorem clearLetGo (s : Scheduler) (t : Nat) : Still s.toState (s.clearLetGo t).toState :=
  .modify _ t fun _ h => h

section

variable (h : Baton s.toState d)
include h

theorem block (me : Nat) (blocked : Blocked) (mem : Memory)
    (outlooks : List Outlook) (hnone : s.dispatchFrom (.block me blocked mem outlooks) = none) :
    Baton (s.block me blocked mem outlooks).1.toState d := by
  have hlock := h.lock
  cases hlooks : s.looks me blocked.key with
  | true =>
    simp only [dispatchFrom, hlooks, Bool.true_and, Bool.not_eq_true',
      reduceCtorEq, ite_eq_right_iff, imp_false, Bool.not_eq_false] at hnone
    rw [Scheduler.block_of_looks hlooks, Scheduler.blockHolding_eq, if_pos hnone]
    have hholder : s.lock.holder.isSome := by
      simp only [Scheduler.looks, Bool.and_eq_true, beq_iff_eq] at hlooks
      rw [lock_toState, hlooks.1.2]
      rfl
    have htake := s.lock.takeForeign_stirs.withForeign
      (s.lock.takeForeign.foreign.remove blocked.key).1
    exact (hlock.withForeign _).stirs htake hholder
  | false =>
    rcases Scheduler.block_of_not_looks hlooks mem outlooks with heq | ⟨-, heq | heq⟩
    · rw [heq]
      exact hlock
    · rw [heq]
      exact hlock.still (clearLetGo _ me)
    · rw [heq]
      exact (hlock.still (clearLetGo _ me)).still (.setBlocked _ me blocked)

theorem yieldNow (me : Nat) (outlooks : List Outlook)
    (hnone : s.dispatchFrom (.yieldNow me outlooks) = none) :
    Baton (s.yieldNow me outlooks).1.toState d := by
  have hlock := h.lock
  simp only [Scheduler.yieldNow]
  split
  · exact hlock
  next hholder =>
  have hholder' : s.holder = some me := by simpa using hholder
  split
  · have hsome : s.lock.holder.isSome := by rw [lock_toState, hholder']; rfl
    have hsettle := s.lock.settleRepoll_stirs me none
    have htake := (s.lock.withState (s.lock.settleRepoll me none)).takeForeign_stirs
    rw [← hsettle.holder] at hsome
    exact ((hlock.stirs hsettle (hsettle.holder ▸ hsome)).withForeign _).stirs htake hsome
  · next hgo =>
    -- it dispatches
    simp only [Bool.or_eq_true, decide_eq_true_eq, not_or, Bool.not_eq_true,
      Option.isNone_eq_false_iff] at hgo
    simp only [dispatchFrom] at hnone
    rw [if_pos ⟨hholder', hgo.1, hgo.2⟩] at hnone
    cases hnone

theorem rejoin (me : Nat) : Baton (s.rejoin me).1.toState d := by
  have hlock := h.lock
  simp only [Scheduler.rejoin]
  split
  · exact h
  generalize s.lock = l at hlock ⊢
  have hback : Baton (l.modify me fun slot => { slot with outside := none }) d :=
    hlock.still (.modify _ me fun _ h => h)
  split
  · exact hback
  have hclear := hback.still
    (clearLetGo (l.withState (l.modify me fun slot => { slot with outside := none })) me)
  unfold Scheduler.takeLetGo
  split
  · split
    · next hmark => cases hmark
    split
    · refine hclear.wake ?_
      simp only [State.setRunnableIfNot]
      split
      · exact .setRunnable _ me _
      · exact .refl _
    · exact hclear
  · exact hback

theorem resume (me : Nat) (outlooks : List Outlook)
    (hnone : s.dispatchFrom (.resume me outlooks) = none) :
    Baton (s.resume me outlooks).1.toState d := by
  have htook : Baton (s.modify me fun slot => { slot with latch := none }) d :=
    h.still (.modify _ me fun _ h => h)
  simp only [Scheduler.resume]
  split
  · exact h
  next grant hlatch =>
  cases grant with
  | run why => exact htook
  | dispatch =>
    dsimp only
    split
    · next hvacant =>
      simp only [dispatchFrom] at hnone
      rw [if_pos ⟨hlatch, by simpa using hvacant⟩] at hnone
      cases hnone
    · rwa [lock_toState]

end

theorem wakeIf {st' : State} {woken : Nat} (h : Baton st d) (hstirs : Stirs st st')
    (hnone : woken = 0 → Still st st') : Baton (if 0 < woken then st'.grantIfIdle else st') d := by
  split
  · exact h.wake hstirs
  · exact h.still (hnone (by omega))

theorem explain_still (st : State) (key : DetKey) : Still st (st.explain key) := by
  refine .of_slots (f := fun _ slot =>
    if slot.repolled = some key then { slot with repolled := none } else slot) (fun t => ?_) rfl ?_
  · show (st.threads.map _).get? t = _
    rw [get?_map]
    rfl
  · intro t slot h
    split at h <;> exact h

section

variable (h : Baton s.toState d)
include h

theorem wakeMasked (key : DetKey) (n : Nat) (mask : UInt32)
    (priv : Option Bool) : Baton (s.wakeMasked key n mask priv).toState d := by
  have hlock := (h.lock.still (explain_still _ key))
  simp only [Scheduler.wakeMasked]
  generalize s.lock.explain key = st at hlock ⊢
  have hwake := st.wakeKeyMatching_stirs key n .woken fun wait => wait.reached mask priv
  have hstill : (st.wakeKeyMatching key n .woken fun wait => wait.reached mask priv).2 = 0 →
      Still st (st.wakeKeyMatching key n .woken fun wait => wait.reached mask priv).1 :=
    State.wakeKeyMatching_still
  generalize (st.wakeKeyMatching key n .woken fun wait => wait.reached mask priv) = woke
    at hwake hstill ⊢
  obtain ⟨st', woken⟩ := woke
  split
  · refine hlock.wakeIf (hwake.trans (State.wakeOutside_stirs _ key _)) fun hzero => ?_
    rw [State.wakeOutside_still (by omega)]
    exact hstill (by omega)
  · exact hlock.wakeIf hwake fun hzero => hstill hzero

theorem wakeReadiness (event : ReadinessWake) : Baton (s.wakeReadiness event).toState d := by
  have hlock := h.lock
  simp only [Scheduler.wakeReadiness]
  generalize s.lock = l at hlock ⊢
  have hwake := l.wakeReadinessKey_stirs event
  have hstill : (l.wakeReadinessKey event).2 = 0 → Still l.toState (l.wakeReadinessKey event).1 :=
    State.wakeKeyMatching_still
  generalize l.wakeReadinessKey event = woke at hwake hstill ⊢
  obtain ⟨st', woken⟩ := woke
  split
  · refine hlock.wakeIf (hwake.trans (State.wakeOutside_stirs _ _ _)) fun hzero => ?_
    rw [State.wakeOutside_still (by omega)]
    exact hstill (by omega)
  · exact hlock.wakeIf hwake fun hzero => hstill hzero

theorem wakeForeign (w : ForeignWake) : Baton (s.wakeForeign w).toState d := by
  have hlock := h.lock
  simp only [Scheduler.wakeForeign]
  generalize s.lock = l at hlock ⊢
  have hstirs := Scheduler.wakeForeignLocked_stirs l.toState w
  refine (hlock.withForeign _).wakeIf hstirs fun hzero => ?_
  -- nobody was waiting: the key is kept, and nothing else changes
  have hstill : Still l.toState
      (l.wakeKeyMatching w.key w.n .woken fun wait => wait.reached w.mask w.priv).1 :=
    State.wakeKeyMatching_still hzero
  simp only [State.wakeForeignLocked]
  split
  · exact { hstill with }
  · exact { hstill with }

theorem advanced (hholder : s.holder.isSome) (now : Option Nat)
    (timerWakes : Option Memory) : Baton (s.advanced now timerWakes).toState d := by
  have hlock := h.lock
  rw [← s.lock_toState] at hholder
  exact hlock.stirs (State.kicked_stirs _ now timerWakes) hholder

theorem repollIfSpoiled (me : Nat) : Baton (s.repollIfSpoiled me).toState d := by
  have hlock := h.lock
  simp only [Scheduler.repollIfSpoiled]
  generalize s.lock = l at hlock ⊢
  split
  · exact hlock
  · exact hlock.wake (l.repoll_stirs me _)

end

end Baton

/-! ## Runs -/

/-- The schedule, and how many dispatchers let go of its lock and have not come back. -/
structure Floor where
  world : World
  dispatchers : Nat

namespace Floor

variable (f : Floor)

/-- A dispatcher comes back only if one let go, and only a spin of the running thread ends in
`advanced`. -/
def enabled (c : Section) : Bool :=
  f.world.enabled c && match c with
    | .redispatch _ _ => 0 < f.dispatchers
    | .advanced _ _ => f.world.sched.holder.isSome
    | _ => true

def rests (c : Section) : Bool :=
  (f.world.sched.dispatchFrom c).any fun (s, outlooks) => s.rests outlooks

/-- How many dispatchers are away, beside the one this section is the return of. -/
def others : Section → Nat
  | .redispatch _ _ => f.dispatchers - 1
  | _ => f.dispatchers

def step (c : Section) : Floor :=
  if f.enabled c then ⟨f.world.step c, f.others c + (f.rests c).toNat⟩ else f

def begin : Floor := ⟨World.begin, 0⟩

/-- The section does not undo the creation of a thread that was handed the baton. -/
def spares : Section → Bool
  | .unspawned child => f.world.sched.holder ≠ some child
  | _ => true

/-- The baton is not lost: who has it can let go of it, and where nobody has it and a thread is
runnable, a dispatcher's next round grants it. -/
structure Handed (f : Floor) : Prop where
  held : ∀ t, f.world.sched.holder = some t → t = external ∨ (f.world.sched.slot t).isSome
  idle : f.world.sched.holder = none → ∀ t, f.world.sched.isRunnable t →
    0 < f.dispatchers ∧ ∀ rested outlook rest,
      (f.step (.redispatch rested (outlook :: rest))).world.sched.holder.isSome

theorem baton_apply {f : Floor} {c : Section} (h : Baton f.world.sched.toState f.dispatchers)
    (henabled : f.enabled c) (hspares : f.spares c) (hnone : f.world.sched.dispatchFrom c = none) :
    Baton (f.world.sched.apply c).1.toState (f.others c) := by
  obtain ⟨w, d⟩ := f
  cases c with
  | enterRoot me => exact h.enterRoot me
  | spawned child => exact h.spawned child
  | started me => exact h.started me
  | unspawned child => exact h.unspawned (by simpa [spares] using hspares)
  | giveBack child => exact h.exit child false
  | attachThread me => exact h.attachThread me
  | detachThread me => exact h.detachThread me
  | exit me root => exact h.exit me root
  | block me blocked mem outlooks => exact h.block me blocked mem outlooks hnone
  | waitOutside me key =>
    simp only [apply, Scheduler.waitOutside]
    split
    · exact h.lock.still (.modify _ me fun _ h => h)
    · exact h.lock
  | rejoin me => exact h.rejoin me
  | yieldNow me outlooks => exact h.yieldNow me outlooks hnone
  | spin me clock =>
    simp only [apply, Scheduler.spin]
    split
    · exact h.lock
    · exact h.lock.still (.modify _ me fun _ h => h)
  | advanced now timerWakes =>
    simp only [enabled, Bool.and_eq_true] at henabled
    exact h.advanced henabled.2 now timerWakes
  | unspin me => exact h.lock.still (.modify _ me fun _ h => h)
  | repollIfSpoiled me => exact h.repollIfSpoiled me
  | resume me outlooks => exact h.resume me outlooks hnone
  | redispatch rested outlooks =>
    -- somebody has the baton by now
    have hholder : w.sched.holder.isSome := by
      simpa [dispatchFrom, Option.isSome_iff_ne_none] using hnone
    have hsame : w.sched.redispatch rested outlooks = w.sched.lock := by
      simp [Scheduler.redispatch, hholder]
    simp only [apply, hsame]
    obtain ⟨t, ht⟩ := Option.isSome_iff_exists.mp hholder
    have hlock : w.sched.lock.holder = some t := by rwa [lock_toState]
    exact .taken hlock (h.lock.held t hlock)
  | wakeThread t => exact h.lock.wake (State.unblock_stirs _ t _)
  | wakeMasked key n mask priv => exact h.wakeMasked key n mask priv
  | wakeForeign wake => exact h.wakeForeign wake
  | queueForeign wake => exact h
  | wakeReadiness event => exact h.wakeReadiness event
  | kick now timerWakes => exact h.lock.wake (State.kicked_stirs _ now timerWakes)
  | releaseDueAt now => exact h.lock.wake (State.releaseDue_stirs _ now)
  | releaseDueNativeAt now => exact h.lock.wake (State.releaseDueMatching_stirs _ now _)
  | took addr me =>
    simp only [apply, Scheduler.took]
    split
    · exact h.lock.still (.of_eq rfl rfl)
    · exact h.lock
  | released addr => exact h.lock.still (.of_eq rfl rfl)
  | takeUnexplained => exact h.lock.still (.of_eq rfl rfl)
  | acquireExternal =>
    simp only [apply, Scheduler.acquireExternal]
    split
    · exact .taken rfl (.inl rfl)
    · exact h.lock
  | holdExternal =>
    simp only [apply, Scheduler.holdExternal]
    split
    · exact .taken rfl (.inl rfl)
    · exact h.lock
  | releaseExternal =>
    simp only [apply, Scheduler.releaseExternal]
    split
    · exact h.lock
    · exact .handOn _ _

theorem baton_step {f : Floor} {c : Section} (h : Baton f.world.sched.toState f.dispatchers)
    (hspares : f.spares c) : Baton (f.step c).world.sched.toState (f.step c).dispatchers := by
  simp only [step]
  split
  · next henabled =>
    have hworld : f.world.enabled c := by
      simp only [enabled, Bool.and_eq_true] at henabled
      exact henabled.1
    have hsched : (f.world.step c).sched = (f.world.sched.apply c).1 := by
      rw [World.step, if_pos hworld]
    rw [hsched]
    cases hfrom : f.world.sched.dispatchFrom c with
    | none =>
      have hrests : f.rests c = false := by rw [rests, hfrom]; rfl
      rw [hrests]
      exact baton_apply h henabled hspares hfrom
    | some start =>
      obtain ⟨happly, hvacant⟩ := Scheduler.apply_dispatch hfrom
      have hrests : f.rests c = start.1.rests start.2 := by rw [rests, hfrom]; rfl
      rw [happly, hrests]
      exact .dispatch hvacant start.2 _
  · exact h

theorem redispatch_grants {f : Floor} {t : Nat} (hvacant : f.world.sched.holder = none)
    (hrunnable : f.world.sched.isRunnable t) (haway : 0 < f.dispatchers) (rested : Rest)
    (outlook : Outlook) (rest : List Outlook) :
    (f.step (.redispatch rested (outlook :: rest))).world.sched.holder.isSome := by
  have henabled : f.enabled (.redispatch rested (outlook :: rest)) := by
    simp [enabled, World.enabled, Section.caller, haway]
  have hworld : f.world.enabled (.redispatch rested (outlook :: rest)) := rfl
  have hlock : f.world.sched.lock.holder = none := by rwa [lock_toState]
  simp only [step, henabled, if_true, World.step, hworld, apply, Scheduler.redispatch, hlock,
    Option.isSome_none, Bool.false_eq_true, if_false]
  have hrest := f.world.sched.lock.afterRest_stirs rested
  generalize hs : f.world.sched.lock.withState _ = s
  have hready : s.isRunnable t := by
    rw [← hs]
    refine hrest.runnable t ?_
    rwa [lock_toState]
  obtain ⟨st, hgrant⟩ := State.grantNext_isSome (s.takeForeign_stirs.runnable t hready)
  simp only [Scheduler.dispatch, hgrant]
  obtain ⟨t', -, -, -, -, rfl⟩ := State.grantNext_eq hgrant
  rfl

theorem handed_of_baton {f : Floor} (h : Baton f.world.sched.toState f.dispatchers) : f.Handed where
  held := h.held
  idle hvacant t ht :=
    have haway := h.idle hvacant t ht
    ⟨haway, redispatch_grants hvacant ht haway⟩

/-- **The baton is not lost.** In every order of the schedule's locked sections in which a thread
the OS failed to create does not hold the baton, whoever has it can let go of it, and where nobody
has it and a thread is runnable a dispatcher is away that grants it when it is back. -/
theorem baton_handed (cs : List Section) (h : Runs.Along step (fun f c => f.spares c) begin cs) :
    Runs.Always step Handed begin cs := by
  let I : Floor → Prop := fun f => Baton f.world.sched.toState f.dispatchers
  have hbegin : I begin := ⟨nofun, fun _ _ ht => nomatch ht⟩
  have hruns := Runs.always_of_along (fun f c (hf : I f) hc => baton_step hf hc) hbegin h
  exact hruns.imp fun f hf => handed_of_baton hf

/-- A root makes a thread the OS fails to create, and waits; the dispatcher lets go of the lock, the
thread is woken and granted the baton, and the dispatcher comes back. -/
def woken : List Section :=
  [.enterRoot 1, .spawned 2, .unspawned 2, .block 1 World.readinessWait World.quietMemory
    [World.restful], .wakeThread 1, .redispatch .asked [World.restful]]

theorem baton_handed_woken :
    Runs.Along step (fun f c => f.spares c) begin woken ∧ Runs.Always step Handed begin woken := by
  have h : Runs.Along step (fun f c => f.spares c) begin woken := by decide +kernel
  exact ⟨h, baton_handed woken h⟩

/-- **Stranded.** On an idle schedule the thread being created is handed the baton at once; the OS
then fails to create it. A root that enters is runnable, nobody runs and no dispatcher is about: the
baton is with a thread that has no slot. -/
theorem runnable_stranded :
    let f := [.spawned 5, .unspawned 5, .enterRoot 7].foldl step begin
    f.world.sched.isRunnable 7 ∧ f.world.phase 7 = .parked ∧ f.dispatchers = 0
      ∧ f.world.sched.holder = some 5 ∧ f.world.sched.slot 5 = none ∧ f.world.phase 5 = .absent
      ∧ ¬ f.Handed := by
  refine ⟨by decide +kernel, by decide +kernel, by decide +kernel, by decide +kernel,
    by decide +kernel, by decide +kernel, fun h => ?_⟩
  have hslot := h.held 5 (by decide +kernel)
  revert hslot
  decide +kernel

end Floor

end Snare.Sched
