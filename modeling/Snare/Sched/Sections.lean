import Snare.Sched.State

/-!
# The schedule's locked sections

Each entry point of the scheduler takes the state lock, does its work and lets go; a `Section` is
one such stretch. A dispatcher holds the lock through several rounds while the domain's answers keep
it looking for a thread to run, and lets go of it to sleep or to move time for threads outside; what
it does when it has the lock again is a section of its own. A thread calls a section only where its
code stands: a parked thread calls none until its grant is there, and a thread not yet started none
but its first.
-/

namespace Snare.Sched

/-- A wake from outside a schedule, queued for it. -/
structure ForeignWake where
  key : DetKey
  n : Nat
  mask : UInt32
  priv : Option Bool

structure Scheduler extends State where
  /-- Every root has left and nothing could run: the threads still alive run outside the schedule
  until a thread enters the domain again. -/
  detached : Bool := false
  /-- Wakes from outside made while the state was held. -/
  foreignQueue : List ForeignWake := []
  /-- How many threads are let go. -/
  letGo : Nat := 0

/-- What the domain tells a dispatcher that found no thread runnable: whether a lease holds it busy,
and what the round then finds. -/
inductive Finding where
  /-- Nothing to do but to let go of the lock: a lease or a held clock to idle through, a thread of
  another simulation to ask about, the timers of threads outside, or a moment of real time. -/
  | rest
  /-- Wakers fired from inside the simulation. -/
  | timerWakes (mem : Memory)
  /-- The real descriptors that are ready. -/
  | realReady (keys : List ReadinessKey)
  /-- Time skipped to `now`. -/
  | skipped (now : Option Nat)
  /-- No time is left to pass. -/
  | stuck (inStaticImage : Nat → Bool)

structure Outlook where
  leases : Bool
  finding : Finding

/-- What a dispatcher let go of the lock for, and what it finds when it has it again. -/
inductive Rest where
  /-- It idled: time stands at `now`, `moved` since, and an executive may drive it. -/
  | idled (now : Option Nat) (moved executive : Bool) (mem : Memory)
  /-- It asked whether a thread of another simulation may still carry a wake here. -/
  | asked
  /-- The timers of threads outside the schedule moved time to `now`. -/
  | foreignSkipped (now : Option Nat)
  /-- A moment of real time passed. -/
  | polled (mem : Memory)

namespace Scheduler

variable (s : Scheduler)

/-- The schedule as `lock` hands it out: a detached one drops its queued outside wakes. -/
def lock : Scheduler := if s.detached then { s with foreignQueue := [] } else s

def withState (st : State) : Scheduler := { s with toState := st }

def takeForeign : Scheduler :=
  { s with
    toState := s.foreignQueue.foldl
      (fun st w => (st.wakeForeignLocked w.key w.n w.mask w.priv).1) s.toState
    foreignQueue := [] }

variable (t : Nat)

def clearLetGo : Scheduler :=
  { s with
    toState := s.modify t fun slot => { slot with letGo := false }
    letGo := s.letGo - 1 }

def takeLetGo : Scheduler × Bool :=
  if (s.slot t).any (·.letGo) then (s.clearLetGo t, true) else (s, false)

/-! ## Dispatching -/

def released (slot : Slot) : Slot :=
  let slot := { slot with repolled := none }
  if slot.blocked.isSome then
    { slot with blocked := none, letGo := true, latch := some (.run .woken) }
  else slot

/-- Every root has left and nothing can run: lets every blocked thread go. Called with no holder. -/
def detach : Scheduler :=
  { s with
    toState :=
      { s.toState with
        foreign := s.foreign.clear
        blocked := 0
        threads := s.threads.map fun _ slot => released slot }
    detached := true
    letGo := s.letGo + s.threads.count fun slot => slot.blocked.isSome && !slot.letGo }

/-- What a round of a dispatcher does with what it found, and whether it goes on to another. -/
def answer : Finding → Scheduler × Bool
  | .rest => (s, false)
  | .timerWakes mem => (s.withState (s.repollAddrWaiters mem), true)
  | .realReady keys =>
    (s.withState (keys.foldl (fun st key => (st.wakeReadinessKey (.keys [key])).1) s.toState), true)
  | .skipped now => (s.withState ((s.releaseDue now).wakeReadinessKey .timer).1, true)
  | .stuck inStaticImage =>
    if s.blockedOnSharedWord inStaticImage then (s, false)
    else
      let (st, woken) := s.wakeKey .readiness everyone .deadlock
      (s.withState st, 0 < woken)

/-- Hands the baton to the next runnable thread after the cursor, moving virtual time when nothing
can run, while the dispatcher holds the lock; a round for each outlook. -/
def dispatch (s : Scheduler) : List Outlook → Scheduler
  | [] => s
  | outlook :: rest =>
    let s := s.takeForeign
    match s.grantNext with
    | some st => s.withState st
    | none =>
      if s.blocked = 0 then s
      else if s.roots = 0 && !outlook.leases then s.detach
      else
        match s.answer outlook.finding with
        | (s, true) => dispatch s rest
        | (s, false) => s

/-- What a dispatcher does first with the lock it has again. -/
def afterRest : Rest → State
  | .idled now moved executive mem =>
    if s.runnable > 0 then s.toState
    else
      let st := if executive then s.toState
        else if moved then ((s.releaseDue now).wakeReadinessKey .timer).1
        else s.releaseDue now
      st.repollAddrWaiters mem
  | .asked => s.toState
  | .foreignSkipped now => s.releaseDue now
  | .polled mem => s.repollAddrWaiters mem

/-- A dispatcher takes the lock again after it let go of it, unless the baton was handed on
meanwhile. -/
def redispatch (rested : Rest) (outlooks : List Outlook) : Scheduler :=
  let s := s.lock
  if s.holder.isSome then s else (s.withState (s.afterRest rested)).dispatch outlooks

/-! ## Entering and leaving

A section that may park its caller says whether it does. -/

variable (me : Nat)

def enterRoot : Scheduler × Bool :=
  let s := s.lock
  let st := s.insertSlot me
  let s := { s with toState := { st with roots := st.roots + 1 }, detached := false }
  if s.holder.isNone then ({ s with holder := some me, last := me }, false)
  else (s.withState (s.setRunnable me .woken), true)

def spawned (child : Nat) : Scheduler :=
  let s := s.lock
  if s.detached then s
  else s.withState ((s.insertSlot child).setRunnable child .woken).grantIfIdle

def attachThread : Scheduler × Bool :=
  let s := s.lock
  let st := s.insertSlot me
  if st.holder = some me then (s.withState st, false)
  else (s.withState (st.setRunnable me .woken).grantIfIdle, true)

def detachThread : Scheduler :=
  let s := s.lock
  let st := (s.takeRunnable me).1
  let st := (st.takeBlocked me).1
  let st := st.modify me fun slot => { slot with latch := none }
  let (st, disowned) := st.disown me
  if st.holder ≠ some me then s.withState (if disowned then st.grantIfIdle else st)
  else s.withState st.handOn

def unspawned (child : Nat) : Scheduler :=
  let s := s.lock
  s.withState ((s.takeRunnable child).1.remove child)

def started : Scheduler × Bool :=
  let s := s.lock
  if s.detached && !s.isRunnable me && s.holder != some me then (s, false)
  else (s.withState (s.insertSlot me), true)

/-- The running thread leaves the domain: its joiners wake and the baton passes on. -/
def exit (me : Nat) (root : Bool) : Scheduler :=
  let s := s.lock
  let st : State := if root then { s.toState with roots := s.roots - 1 } else s.toState
  let st := st.settleRepoll me none
  let st : State :=
    { st with exited := if me ∈ st.exited then st.exited else me :: st.exited }
  let st := (st.takeRunnable me).1
  let st := (st.takeBlocked me).1
  let slot := st.slot me
  let st := st.remove me
  let s : Scheduler := if slot.any (·.letGo) then { s with letGo := s.letGo - 1 } else s
  let st := (st.disown me).1
  let st := (st.wakeKey (.exit me) everyone .woken).1
  if st.holder = some me then s.withState st.handOn else s.withState st.grantIfIdle

/-! ## Waiting -/

variable (key : DetKey)

def joinedGone : Bool :=
  match key with
  | .exit t => t ∈ s.exited
  | _ => false

/-- The wait of the thread that holds the baton: it returns at once if a wake from outside came
first, and else the schedule goes on without it. -/
def blockHolding (blocked : Blocked) (mem : Memory)
    (outlooks : List Outlook) : Scheduler × Bool :=
  let s := s.takeForeign
  let (foreign, reached) := s.foreign.remove blocked.key
  let s := { s with foreign }
  if reached || blocked.changedOutside mem then (s, false)
  else
    let st := (s.settleRepoll me (some blocked.key)).setBlocked me blocked
    ((s.withState { st with holder := none }).dispatch outlooks, true)

/-- Parks the running thread until it is woken or its deadline is reached. A thread let go when the
schedule detached waits without the baton; any other without it, and a join on a thread that is
gone, returns at once. -/
def block (blocked : Blocked) (mem : Memory) (outlooks : List Outlook) :
    Scheduler × Bool :=
  let s := s.lock
  let (s, hadMark) := if s.holder ≠ some me then s.takeLetGo me else (s, false)
  if hadMark && !s.detached then (s.withState (s.setBlocked me blocked), true)
  else if (s.slot me).isNone || s.holder ≠ some me || s.joinedGone blocked.key then (s, false)
  else s.blockHolding me blocked mem outlooks

def waitOutside (key : DetKey) : Scheduler :=
  let s := s.lock
  if (s.slot me).any (·.letGo) then
    s.withState (s.modify me fun slot => { slot with outside := some key })
  else s

/-- A native wait returned: a thread let go when the schedule detached, while a run is active again,
waits for the baton. -/
def rejoin : Scheduler × Bool :=
  if s.letGo = 0 then (s, false)
  else
    let s := s.lock
    let s := s.withState (s.modify me fun slot => { slot with outside := none })
    if s.detached then (s, false)
    else
      let (s, hadMark) := s.takeLetGo me
      if !hadMark then (s, false)
      else if s.holder ≠ some me then
        (s.withState (s.setRunnableIfNot me .woken).grantIfIdle, true)
      else (s, true)

/-- The running thread steps aside for every other runnable thread, then runs again. -/
def yieldNow (outlooks : List Outlook) : Scheduler × Bool :=
  let s := s.lock
  if s.holder ≠ some me then (s, false)
  else
    let s := (s.withState (s.settleRepoll me none)).takeForeign
    if s.runnable = 0 || (s.slot me).isNone then (s, false)
    else
      let st := s.setRunnable me .woken
      ((s.withState { st with holder := none }).dispatch outlooks, true)

/-- The start of one step of the running thread's spin: it then yields, or `advanced` moves time. -/
def spin (clock : Bool) : Scheduler :=
  let s := s.lock
  if s.holder ≠ some me then s
  else s.withState (s.modify me fun slot => { slot with spinner := some clock })

variable (now : Option Nat)

def advanced (timerWakes : Option Memory) : Scheduler :=
  let s := s.lock
  let st := ((s.releaseDue now).wakeReadinessKey .timer).1
  s.withState (timerWakes.elim st st.repollAddrWaiters)

def unspin : Scheduler :=
  let s := s.lock
  s.withState (s.modify me fun slot => { slot with spinner := none })

/-- Re-polls a thread that a wait nested in the dispatch it just ran spoiled the wait of. -/
def repollIfSpoiled : Scheduler :=
  let s := s.lock
  match (s.slot me).bind (·.blocked) with
  | none => s
  | some (b, _) => s.withState (s.repoll me b.key).grantIfIdle

/-- A parked thread takes its grant: `true` if it is the baton. The duty of moving the schedule on
it takes up at once. -/
def resume (outlooks : List Outlook) : Scheduler × Bool :=
  match (s.slot me).bind (·.latch) with
  | none => (s, false)
  | some grant =>
    let s := s.withState (s.modify me fun slot => { slot with latch := none })
    match grant with
    | .run _ => (s, true)
    | .dispatch =>
      let s := s.lock
      (if s.holder.isNone then s.dispatch outlooks else s, false)

/-! ## Waking -/

def wakeThread : Scheduler :=
  let s := s.lock
  s.withState (s.unblock t .woken).grantIfIdle

/-- Moves up to `n` of a key's waiters, oldest first, to the run queue, then let-go threads in a
native wait on it. -/
def wakeMasked (n : Nat) (mask : UInt32) (priv : Option Bool) :
    Scheduler :=
  let s := s.lock
  let st := s.explain key
  let (st, woken) := st.wakeKeyMatching key n .woken fun wait => wait.reached mask priv
  let (st, more) := if woken < n && !s.detached then st.wakeOutside key (n - woken) else (st, 0)
  s.withState (if 0 < woken + more then st.grantIfIdle else st)

/-- A wake made by a thread outside the schedule, which has the state or found it free. -/
def wakeForeign (w : ForeignWake) : Scheduler :=
  let s := s.lock
  let (st, woken) := s.wakeForeignLocked w.key w.n w.mask w.priv
  s.withState (if 0 < woken then st.grantIfIdle else st)

/-- A wake made by a thread outside the schedule while another thread has the state. -/
def queueForeign (w : ForeignWake) : Scheduler :=
  { s with foreignQueue := s.foreignQueue ++ [w] }

def wakeReadiness (event : ReadinessWake) : Scheduler :=
  let s := s.lock
  let (st, woken) := s.wakeReadinessKey event
  let (st, more) := if !s.detached then st.wakeOutside .readiness everyone else (st, 0)
  s.withState (if 0 < woken + more then st.grantIfIdle else st)

def kick (timerWakes : Option Memory) : Scheduler :=
  let s := s.lock
  let st := ((s.releaseDue now).wakeReadinessKey .timer).1
  s.withState (timerWakes.elim st st.repollAddrWaiters).grantIfIdle

def releaseDueAt : Scheduler :=
  let s := s.lock
  s.withState (s.releaseDue now).grantIfIdle

/-- Times out the native waits a call's latency reached, unless other threads wait for their
turn. -/
def releaseDueNativeAt : Scheduler :=
  let s := s.lock
  let othersRun := 0 < s.runnable
  s.withState (s.releaseDueMatching now fun wait =>
    (match wait.key with
      | .addr _ => true
      | _ => false) && !othersRun).grantIfIdle

/-! ## Mutex owners, the executive -/

def took (addr me : Nat) : Scheduler :=
  let s := s.lock
  if (s.owners.get? addr).isSome || s.owners.size + 1 < ownedMutexes then
    { s with owners := s.owners.insert addr me }
  else s

def releasedMutex (addr : Nat) : Scheduler :=
  let s := s.lock
  { s with owners := s.owners.erase addr }

def takeUnexplained : Scheduler := { s.lock with unexplained := [] }

def acquireExternal : Scheduler :=
  let s := s.lock
  if s.idle then { s with holder := some external } else s

/-- Takes the baton for an executive that found the domain quiescent: no participant runs or is next
to. -/
def holdExternal : Scheduler :=
  let s := s.lock
  if s.running.isNone then { s with holder := some external } else s

def releaseExternal : Scheduler :=
  let s := s.lock
  if s.holder ≠ some external then s else s.withState s.handOn

end Scheduler

/-! ## Threads and their sections -/

/-- Where a thread's code stands: outside the schedule; created and not yet started; in its own
code, in the schedule or beside it; or parked in a section. -/
inductive Phase where
  | absent
  | unborn
  | running
  | parked
  deriving DecidableEq

/-- A locked section, with what the domain answers in it. -/
inductive Section where
  | enterRoot (me : Nat)
  | spawned (child : Nat)
  | started (me : Nat)
  | unspawned (child : Nat)
  /-- A place queued for a thread that never took it is given back. -/
  | giveBack (child : Nat)
  | attachThread (me : Nat)
  | detachThread (me : Nat)
  | exit (me : Nat) (root : Bool)
  | block (me : Nat) (blocked : Blocked) (mem : Memory) (outlooks : List Outlook)
  | waitOutside (me : Nat) (key : DetKey)
  | rejoin (me : Nat)
  | yieldNow (me : Nat) (outlooks : List Outlook)
  | spin (me : Nat) (clock : Bool)
  | advanced (now : Option Nat) (timerWakes : Option Memory)
  | unspin (me : Nat)
  | repollIfSpoiled (me : Nat)
  | resume (me : Nat) (outlooks : List Outlook)
  | redispatch (rested : Rest) (outlooks : List Outlook)
  | wakeThread (t : Nat)
  | wakeMasked (key : DetKey) (n : Nat) (mask : UInt32) (priv : Option Bool)
  | wakeForeign (w : ForeignWake)
  | queueForeign (w : ForeignWake)
  | wakeReadiness (event : ReadinessWake)
  | kick (now : Option Nat) (timerWakes : Option Memory)
  | releaseDueAt (now : Option Nat)
  | releaseDueNativeAt (now : Option Nat)
  | took (addr me : Nat)
  | released (addr : Nat)
  | takeUnexplained
  | acquireExternal
  | holdExternal
  | releaseExternal

namespace Section

/-- The thread a section belongs to, and where its code must stand. A wake, a kick or a dispatcher's
return may come from any thread. -/
def caller : Section → Option (Nat × List Phase)
  | enterRoot me => some (me, [.absent])
  | spawned child => some (child, [.absent])
  | started me => some (me, [.unborn])
  | unspawned child => some (child, [.unborn])
  | giveBack child => some (child, [.unborn])
  | attachThread me => some (me, [.absent, .running])
  | detachThread me => some (me, [.absent, .running])
  | exit me _ => some (me, [.absent, .running])
  | block me _ _ _ => some (me, [.absent, .running])
  | waitOutside me _ => some (me, [.absent, .running])
  | rejoin me => some (me, [.absent, .running])
  | yieldNow me _ => some (me, [.absent, .running])
  | spin me _ => some (me, [.absent, .running])
  | unspin me => some (me, [.absent, .running])
  | repollIfSpoiled me => some (me, [.parked])
  | resume me _ => some (me, [.parked])
  | _ => none

end Section

structure World where
  sched : Scheduler
  phase : Nat → Phase

/-- The phase of a thread that came out of a section that may park it. -/
def parkedIf (parks : Bool) : Phase := if parks then .parked else .running

/-- What a section does to the schedule, and where it leaves the thread it belongs to. -/
def Scheduler.apply (s : Scheduler) : Section → Scheduler × Option Phase
  | .enterRoot me => let (s, parks) := s.enterRoot me; (s, some (parkedIf parks))
  | .spawned child => (s.spawned child, some .unborn)
  | .started me => let (s, parks) := s.started me; (s, some (parkedIf parks))
  | .unspawned child => (s.unspawned child, some .absent)
  | .giveBack child => (s.exit child false, some .absent)
  | .attachThread me => let (s, parks) := s.attachThread me; (s, some (parkedIf parks))
  | .detachThread me => (s.detachThread me, some .running)
  | .exit me root => (s.exit me root, some .absent)
  | .block me blocked mem outlooks =>
    let (s, parks) := s.block me blocked mem outlooks
    (s, some (parkedIf parks))
  | .waitOutside me key => (s.waitOutside me key, some .running)
  | .rejoin me => let (s, parks) := s.rejoin me; (s, some (parkedIf parks))
  | .yieldNow me outlooks =>
    let (s, parks) := s.yieldNow me outlooks
    (s, some (parkedIf parks))
  | .spin me clock => (s.spin me clock, some .running)
  | .advanced now timerWakes => (s.advanced now timerWakes, none)
  | .unspin me => (s.unspin me, some .running)
  | .repollIfSpoiled me => (s.repollIfSpoiled me, none)
  | .resume me outlooks =>
    let (s, runs) := s.resume me outlooks
    (s, some (parkedIf !runs))
  | .redispatch rested outlooks => (s.redispatch rested outlooks, none)
  | .wakeThread t => (s.wakeThread t, none)
  | .wakeMasked key n mask priv => (s.wakeMasked key n mask priv, none)
  | .wakeForeign w => (s.wakeForeign w, none)
  | .queueForeign w => (s.queueForeign w, none)
  | .wakeReadiness event => (s.wakeReadiness event, none)
  | .kick now timerWakes => (s.kick now timerWakes, none)
  | .releaseDueAt now => (s.releaseDueAt now, none)
  | .releaseDueNativeAt now => (s.releaseDueNativeAt now, none)
  | .took addr me => (s.took addr me, none)
  | .released addr => (s.releasedMutex addr, none)
  | .takeUnexplained => (s.takeUnexplained, none)
  | .acquireExternal => (s.acquireExternal, none)
  | .holdExternal => (s.holdExternal, none)
  | .releaseExternal => (s.releaseExternal, none)

namespace World

/-- Whether the section's thread stands where it can call it. No thread has the executive's
lineage. -/
def enabled (w : World) (c : Section) : Bool :=
  c.caller.all fun (t, phases) => t ≠ external && phases.contains (w.phase t)

/-- One section, run to its end; a section no thread can call does nothing. -/
def step (w : World) (c : Section) : World :=
  if w.enabled c then
    let (sched, phase) := w.sched.apply c
    { sched
      phase := match c.caller, phase with
        | some (t, _), some p => Function.update w.phase t p
        | _, _ => w.phase }
  else w

def begin : World := ⟨{}, fun _ => .absent⟩

end World

end Snare.Sched
