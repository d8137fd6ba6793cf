import Snare.Sched.Wakes

/-!
# The sections that dispatch

A wait, a thread that steps aside, a parked thread's return and a dispatcher's own return may each
end in a dispatcher's rounds.

* **`Scheduler.dispatchFrom`**: the schedule a section's dispatcher starts from, if it has one, and
  **`Scheduler.apply_dispatch`**: what the section does is those rounds;
* **`Scheduler.rests`**: whether the rounds end with the dispatcher letting go of the lock, to come
  back for more;
* **`Scheduler.block_of_looks`**, **`Scheduler.block_of_not_looks`**: a wait, by whether the
  schedule looks at it.
-/

namespace Snare.Sched

namespace Scheduler

variable {s : Scheduler}

/-- Whether a dispatcher's rounds end with it letting go of the lock, to come back for more. -/
def rests (s : Scheduler) : List Outlook → Bool
  | [] => true
  | outlook :: rest =>
    let s := s.takeForeign
    match s.grantNext with
    | some _ => false
    | none =>
      if s.blocked = 0 then false
      else if s.roots = 0 && !outlook.leases then false
      else
        match s.answer outlook.finding with
        | (s, true) => rests s rest
        | (_, false) => true

/-- A wait that is looked at: by the thread that holds the baton, and not a join on a thread that is
gone. -/
def looks (s : Scheduler) (me : Nat) (key : DetKey) : Bool :=
  (s.slot me).isSome && s.holder == some me && !s.joinedGone key

def atOnce (s : Scheduler) (blocked : Blocked) (mem : Memory) : Bool :=
  (s.takeForeign.foreign.remove blocked.key).2 || blocked.changedOutside mem

/-- The schedule as a wait that does not return at once leaves it to the dispatcher. -/
def parkedIn (s : Scheduler) (me : Nat) (blocked : Blocked) : Scheduler :=
  let s := s.takeForeign
  let s := { s with foreign := (s.foreign.remove blocked.key).1 }
  let st := (s.settleRepoll me (some blocked.key)).setBlocked me blocked
  s.withState { st with holder := none }

def yielded (s : Scheduler) (me : Nat) : Scheduler :=
  let s := (s.withState (s.settleRepoll me none)).takeForeign
  s.withState { s.setRunnable me .woken with holder := none }

/-- The schedule a section's dispatcher starts from and its rounds, if the section dispatches. -/
def dispatchFrom (s : Scheduler) : Section → Option (Scheduler × List Outlook)
  | .block me blocked mem outlooks =>
    if s.looks me blocked.key && !s.lock.atOnce blocked mem then
      some (s.lock.parkedIn me blocked, outlooks)
    else none
  | .yieldNow me outlooks =>
    let aside := (s.lock.withState (s.lock.settleRepoll me none)).takeForeign
    if s.holder = some me ∧ aside.runnable ≠ 0 ∧ (aside.slot me).isSome then
      some (s.lock.yielded me, outlooks)
    else none
  | .resume me outlooks =>
    let s' := (s.withState (s.modify me fun slot => { slot with latch := none })).lock
    if (s.slot me).bind (·.latch) = some .dispatch ∧ s'.holder = none then some (s', outlooks)
    else none
  | .redispatch rested outlooks =>
    if s.holder = none then some (s.lock.withState (s.lock.afterRest rested), outlooks) else none
  | _ => none

theorem blockHolding_eq (s : Scheduler) (me : Nat) (blocked : Blocked) (mem : Memory)
    (outlooks : List Outlook) :
    s.blockHolding me blocked mem outlooks = if s.atOnce blocked mem then
        ({ s.takeForeign with foreign := (s.takeForeign.foreign.remove blocked.key).1 }, false)
      else ((s.parkedIn me blocked).dispatch outlooks, true) := rfl

theorem block_of_looks {me : Nat} {blocked : Blocked} (h : s.looks me blocked.key) (mem : Memory)
    (outlooks : List Outlook) :
    s.block me blocked mem outlooks = s.lock.blockHolding me blocked mem outlooks := by
  simp only [looks, Bool.and_eq_true, beq_iff_eq, Bool.not_eq_true'] at h
  obtain ⟨⟨hslot, hholder⟩, hgone⟩ := h
  have hgone' : s.lock.joinedGone blocked.key = false := by
    unfold joinedGone at hgone ⊢
    rwa [lock_toState]
  have hslot' : (s.slot me).isNone = false := by simpa using hslot
  unfold block
  simp [lock_toState, hholder, hslot', hgone']

theorem block_of_not_looks {me : Nat} {blocked : Blocked} (h : s.looks me blocked.key = false)
    (mem : Memory) (outlooks : List Outlook) : s.block me blocked mem outlooks = (s.lock, false)
      ∨ (s.slot me).any (·.letGo) ∧ (s.block me blocked mem outlooks = (s.lock.clearLetGo me, false)
        ∨ s.block me blocked mem outlooks = ((s.lock.clearLetGo me).withState
          ((s.lock.clearLetGo me).setBlocked me blocked), true)) := by
  have hlock : s.lock.slot me = s.slot me := by rw [lock_toState]
  unfold block takeLetGo
  by_cases hholder : s.lock.holder = some me
  · -- the holder is not looked at when it has no slot or joins a thread that is gone
    left
    have hnot : (s.lock.slot me).isNone || s.lock.joinedGone blocked.key := by
      unfold looks at h
      unfold joinedGone at h ⊢
      rw [lock_toState] at hholder ⊢
      cases hslot : s.slot me with
      | none => rfl
      | some slot => simpa [hslot, hholder] using h
    simp only [hholder, ne_eq, not_true_eq_false, if_false, Bool.false_and, Bool.false_eq_true,
      decide_false, Bool.or_false]
    rw [if_pos hnot]
  · dsimp only
    rw [if_pos hholder, hlock]
    cases hmark : (s.slot me).any (·.letGo) with
    | false =>
      left
      have hother : s.holder ≠ some me := by rwa [lock_toState] at hholder
      simp [hother]
    | true =>
      refine .inr ⟨rfl, ?_⟩
      have hother : (s.lock.clearLetGo me).holder ≠ some me := hholder
      simp only [if_true, Bool.true_and]
      split
      · exact .inr rfl
      · exact .inl (by simp [hother])

/-- **The sections that dispatch.** -/
theorem apply_dispatch {c : Section} {s' : Scheduler} {outlooks : List Outlook}
    (h : s.dispatchFrom c = some (s', outlooks)) :
    (s.apply c).1 = s'.dispatch outlooks ∧ s'.holder = none := by
  cases c with
  | block me blocked mem rounds =>
    simp only [dispatchFrom, Option.ite_none_right_eq_some, Bool.and_eq_true, Bool.not_eq_true',
      Option.some.injEq, Prod.mk.injEq] at h
    obtain ⟨⟨hlooks, honce⟩, rfl, rfl⟩ := h
    refine ⟨?_, rfl⟩
    simp only [apply, block_of_looks hlooks, blockHolding_eq, honce]
    rfl
  | yieldNow me rounds =>
    simp only [dispatchFrom, Option.ite_none_right_eq_some, Option.some.injEq, Prod.mk.injEq] at h
    obtain ⟨⟨hholder, hrunnable, hslot⟩, rfl, rfl⟩ := h
    refine ⟨?_, rfl⟩
    have hslot' : (((s.lock.withState (s.lock.settleRepoll me none)).takeForeign).slot me).isNone
        = false := by simpa using hslot
    have hholder' : s.lock.holder = some me := by rwa [lock_toState]
    simp only [apply, yieldNow, hholder', hrunnable, hslot', ne_eq, not_true_eq_false, if_false,
      decide_false, Bool.or_false, Bool.false_eq_true]
    rfl
  | resume me rounds =>
    simp only [dispatchFrom, Option.ite_none_right_eq_some, Option.some.injEq, Prod.mk.injEq] at h
    obtain ⟨⟨hlatch, hholder⟩, rfl, rfl⟩ := h
    refine ⟨?_, hholder⟩
    simp only [apply, resume, hlatch, hholder, Option.isNone_none, if_true]
  | redispatch rested rounds =>
    simp only [dispatchFrom, Option.ite_none_right_eq_some, Option.some.injEq, Prod.mk.injEq] at h
    obtain ⟨hholder, rfl, rfl⟩ := h
    have hholder' : s.lock.holder = none := by rwa [lock_toState]
    refine ⟨by simp [apply, redispatch, hholder], ?_⟩
    exact (s.lock.afterRest_quiet rested).holder.trans hholder'
  | _ => cases h

end Scheduler

end Snare.Sched
