import Snare.Lib.Runs
import Snare.Sched.Sound

/-!
# The baton

Every locked section keeps the schedule's invariant, but for three that need care: `unspawned` takes
the slot of a thread that `spawned` may already have handed the baton, and a thread let go when the
schedule detached keeps a mark that a later wake acts on even where the thread has come to hold the
baton or waits by other means.

* **`World.baton_kept`**: runs whose steps avoid those;
* **`World.baton_lost`**: a thread the OS failed to create holds the baton.
-/

namespace Snare.Sched

/-! ## Runs -/

/-- What the schedule promises: the counters count the slots, no thread is both runnable and
blocked, and a participant with the baton has a slot and is neither. -/
structure State.Orderly (st : State) : Prop where
  runnable_eq : st.runnable = st.threads.count fun slot => slot.runnable.isSome
  blocked_eq : st.blocked = st.threads.count fun slot => slot.blocked.isSome
  apart : ∀ t slot, st.slot t = some slot → slot.runnable = none ∨ slot.blocked = none
  holder : ∀ t, st.holder = some t → t ≠ external →
    ∃ slot, st.slot t = some slot ∧ slot.runnable = none ∧ slot.blocked = none

theorem Scheduler.Sound.orderly {s : Scheduler} {phase : Nat → Phase} (h : s.Sound phase) :
    s.Orderly where
  runnable_eq := h.good.runnable_eq
  blocked_eq := h.good.blocked_eq
  apart t slot hslot := by
    by_cases hrunnable : slot.runnable = none
    · exact Or.inl hrunnable
    · exact Or.inr ((h.good.fits t slot hslot).apart (Option.isSome_iff_ne_none.mpr hrunnable))
  holder t hholder ht := by
    obtain ⟨slot, hslot⟩ := Option.isSome_iff_exists.mp (h.good.held t hholder ht)
    exact ⟨slot, hslot, (h.good.fits t slot hslot).idle hholder⟩

def Slot.settled (slot : Slot) : Bool :=
  slot.outside.isNone && slot.runnable.isNone && !slot.granted

theorem Slot.settled_iff {slot : Slot} : slot.settled ↔ slot.Settled := by
  simp only [Slot.settled, Bool.and_eq_true, Option.isNone_iff_eq_none, Bool.not_eq_true']
  exact ⟨fun h => ⟨h.1.1, h.1.2, h.2⟩, fun h => ⟨⟨h.outside, h.runnable⟩, h.granted⟩⟩

namespace World

/-- The sections that need care. A thread the OS failed to create does not hold the baton. A let-go
thread that enters a native wait is neither queued nor the holder, and has nothing left of that wait
when it next joins the schedule, waits in it or yields. -/
def careful (w : World) : Section → Bool
  | .unspawned child => w.sched.holder != some child
  | .waitOutside me _ =>
    (w.sched.slot me).all fun slot =>
      !slot.letGo || (w.sched.holder != some me && slot.runnable.isNone)
  | .attachThread me => (w.sched.slot me).all Slot.settled
  | .block me _ _ _ => (w.sched.slot me).all Slot.settled
  | .yieldNow me _ => (w.sched.slot me).all Slot.settled
  | _ => true

theorem settled_of_all {o : Option Slot} (h : o.all Slot.settled) :
    ∀ slot, o = some slot → slot.Settled := by
  rintro slot rfl
  exact Slot.settled_iff.mp h

theorem caller_of_enabled {w : World} {c : Section} {t : Nat} {phases : List Phase}
    (h : w.enabled c) (hcaller : c.caller = some (t, phases)) :
    t ≠ external ∧ w.phase t ∈ phases := by
  simpa [enabled, hcaller] using h

theorem sound_step {w : World} (h : w.sched.Sound w.phase) (c : Section) (hcare : w.careful c) :
    (w.step c).sched.Sound (w.step c).phase := by
  simp only [World.step]
  split
  next hen =>
    cases c <;> simp only [Scheduler.apply, Section.caller]
    case enterRoot me =>
      obtain ⟨hme, hphase⟩ := caller_of_enabled hen rfl
      exact h.enterRoot hme (by simpa using hphase)
    case spawned child =>
      obtain ⟨hme, hphase⟩ := caller_of_enabled hen rfl
      exact h.spawned hme (by simpa using hphase)
    case started me =>
      obtain ⟨hme, hphase⟩ := caller_of_enabled hen rfl
      exact h.started hme (by simpa using hphase)
    case unspawned child =>
      obtain ⟨-, hphase⟩ := caller_of_enabled hen rfl
      exact h.unspawned (by simpa using hphase) (by simpa [careful] using hcare)
    case giveBack child => exact h.exit child false
    case attachThread me =>
      obtain ⟨hme, hphase⟩ := caller_of_enabled hen rfl
      exact h.attachThread hme (by simpa using hphase) (settled_of_all hcare)
    case detachThread me =>
      obtain ⟨hme, hphase⟩ := caller_of_enabled hen rfl
      exact h.detachThread hme (by simpa using hphase)
    case exit me root => exact h.exit me root
    case block me blocked mem outlooks =>
      obtain ⟨hme, hphase⟩ := caller_of_enabled hen rfl
      exact h.block hme (by simpa using hphase) (settled_of_all hcare) blocked mem outlooks
    case waitOutside me key =>
      obtain ⟨hme, hphase⟩ := caller_of_enabled hen rfl
      refine h.waitOutside hme (by simpa using hphase) key fun slot hslot hletGo => ?_
      simpa [careful, hslot, hletGo] using hcare
    case rejoin me =>
      obtain ⟨hme, hphase⟩ := caller_of_enabled hen rfl
      exact h.rejoin hme (by simpa using hphase)
    case yieldNow me outlooks =>
      obtain ⟨hme, hphase⟩ := caller_of_enabled hen rfl
      exact h.yieldNow hme (by simpa using hphase) (settled_of_all hcare) outlooks
    case spin me clock =>
      obtain ⟨hme, hphase⟩ := caller_of_enabled hen rfl
      exact (h.running hme (by simpa using hphase)).spin me clock
    case unspin me =>
      obtain ⟨hme, hphase⟩ := caller_of_enabled hen rfl
      exact (h.running hme (by simpa using hphase)).lock.setSpinner me none
    case resume me outlooks =>
      obtain ⟨-, hphase⟩ := caller_of_enabled hen rfl
      exact h.resume (by simpa using hphase) outlooks
    case advanced now timerWakes => exact h.advanced now timerWakes
    case repollIfSpoiled me => exact h.repollIfSpoiled me
    case redispatch rested outlooks => exact Scheduler.Keeps.redispatch h rested outlooks
    case wakeThread t => exact h.lock.wake (State.unblock_quiet _ t .woken)
    case wakeMasked key n mask priv => exact h.wakeMasked key n mask priv
    case wakeForeign foreign => exact h.wakeForeign foreign
    case queueForeign foreign => exact { h with }
    case wakeReadiness event => exact h.wakeReadiness event
    case kick now timerWakes => exact h.kick now timerWakes
    case releaseDueAt now => exact h.lock.wake (State.releaseDue_quiet _ now)
    case releaseDueNativeAt now => exact h.lock.wake (State.releaseDueMatching_quiet _ now _)
    case took addr me => exact h.took addr me
    case released addr => exact ⟨h.lock.good, h.lock.letGo_eq⟩
    case takeUnexplained => exact ⟨h.lock.good, h.lock.letGo_eq⟩
    case acquireExternal => exact h.acquireExternal
    case holdExternal => exact h.holdExternal
    case releaseExternal => exact h.releaseExternal
  · exact h

theorem sound_begin : begin.sched.Sound begin.phase where
  good := {
    fits := fun _ _ hslot => nomatch hslot
    held := fun _ hholder => nomatch hholder
    participants := rfl
    runnable_eq := rfl
    blocked_eq := rfl }
  letGo_eq := rfl

/-- **The baton is kept.** In every order of the schedule's locked sections in which those that need
care have it, the counters count, no thread is runnable and blocked at once, and the baton is with a
thread that exists and is neither. -/
theorem baton_kept (cs : List Section) (h : Runs.Along step (fun w c => w.careful c) begin cs) :
    Runs.Always step (fun w => w.sched.Orderly) begin cs := by
  let I : World → Prop := fun w => w.sched.Sound w.phase
  have hruns := Runs.always_of_along (fun w c (hw : I w) hc => sound_step hw c hc) sound_begin h
  exact hruns.imp fun w hw => hw.orderly

def readinessWait : Blocked where
  key := .readiness
  mask := 0xffffffff
  futexPrivate := none
  readiness := none
  deadline := none
  signalVersion := none
  futexValue := none
  outsideHolder := false

def quietMemory : Memory := ⟨fun _ _ _ => none, fun _ => 0⟩

def restful : Outlook := ⟨false, .rest⟩

/-- A root makes a daemon that waits for readiness, and leaves; the schedule lets the daemon go. -/
def daemonLetGo : List Section :=
  [.enterRoot 1, .spawned 2, .yieldNow 1 [restful], .started 2, .resume 2 [],
    .block 2 readinessWait quietMemory [restful], .resume 1 [], .exit 1 true, .resume 2 [restful],
    .resume 2 []]

/-- The let-go daemon waits natively, a new root's wake queues it, and it rejoins and gets the baton
back. -/
theorem baton_kept_daemon : Runs.Along step (fun w c => w.careful c) begin
        (daemonLetGo ++ [.waitOutside 2 (.addr 64), .enterRoot 3,
          .wakeMasked (.addr 64) 1 0xffffffff none, .rejoin 2, .yieldNow 3 [restful], .resume 2 []])
      ∧ Runs.Always step (fun w => w.sched.Orderly) begin
        (daemonLetGo ++ [.waitOutside 2 (.addr 64), .enterRoot 3,
          .wakeMasked (.addr 64) 1 0xffffffff none, .rejoin 2, .yieldNow 3 [restful],
          .resume 2 []]) := by
  have h : Runs.Along step (fun w c => w.careful c) begin
      (daemonLetGo ++ [.waitOutside 2 (.addr 64), .enterRoot 3,
        .wakeMasked (.addr 64) 1 0xffffffff none, .rejoin 2, .yieldNow 3 [restful],
        .resume 2 []]) := by
    decide +kernel
  exact ⟨h, baton_kept _ h⟩

/-- **Lost.** On an idle schedule the thread being created is handed the baton at once; the OS then
fails to create it, and the baton stays with a thread that has no slot. A root that enters queues
behind it. -/
theorem baton_lost :
    let w := [.spawned 5, .unspawned 5].foldl step begin
    w.sched.holder = some 5 ∧ w.sched.slot 5 = none ∧ ¬ w.sched.Orderly
      ∧ (w.step (.enterRoot 7)).phase 7 = .parked
      ∧ (w.step (.enterRoot 7)).sched.holder = some 5 := by
  refine ⟨by decide +kernel, by decide +kernel, ?_, by decide +kernel, by decide +kernel⟩
  intro h
  obtain ⟨slot, hslot, -⟩ := h.holder 5 (by decide +kernel) (by decide +kernel)
  have hnone : ([.spawned 5, .unspawned 5].foldl step begin).sched.slot 5 =
      none := by decide +kernel
  cases hnone.symm.trans hslot

end World

end Snare.Sched
