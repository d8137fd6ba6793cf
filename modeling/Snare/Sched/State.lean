import Snare.Lib.SortedMap
import Snare.Lib.U64

/-!
# The deterministic schedule's state

One domain's threads pass a baton. Each thread has a slot, in which it is runnable, blocked or
neither; two counters keep how many slots are in each state. What wakes a waiter moves it from
blocked to runnable, and `grantNext` hands the baton to the next runnable thread after the last one
that had it. Threads are named by lineage id.
-/

namespace Snare.Sched

inductive DetKey where
  | readiness
  | addr (addr : Nat)
  | exit (t : Nat)
  deriving DecidableEq

/-- A stable source of simulated descriptor readiness. -/
inductive ReadinessKey where
  | socket (id : Nat)
  | descriptor (id : Nat)
  | thread (id : Nat)
  | real (id : Nat)
  deriving DecidableEq

/-- Which subscriptions a readiness notification reaches. -/
inductive ReadinessWake where
  | all
  | timer
  | keys (keys : List ReadinessKey)

structure ReadinessInterest where
  keys : List ReadinessKey
  broad : Bool
  timed : Bool

def ReadinessInterest.matches (interest : ReadinessInterest) (event : ReadinessWake) : Bool :=
  interest.broad ||
    match event with
    | .all => true
    | .timer => interest.timed
    | .keys keys => keys.any fun key => interest.keys.contains key

inductive DetWake where
  | woken
  | timedOut
  | deadlock
  deriving DecidableEq

/-- What a parked thread is handed: the baton, with why it was made ready, or the duty of moving the
schedule on while it stays blocked. -/
inductive Grant where
  | run (why : DetWake)
  | dispatch
  deriving DecidableEq

/-- The memory a re-poll reads: the signal count of a word as a wait with a mask and a scope sees
it, and a futex word's value. -/
structure Memory where
  signalVersion : Nat → UInt32 → Option Bool → Option Nat
  futexValue : Nat → Nat

structure Blocked where
  key : DetKey
  mask : UInt32
  futexPrivate : Option Bool
  readiness : Option ReadinessInterest
  /-- The virtual time it times out at. -/
  deadline : Option Nat
  signalVersion : Option Nat
  futexValue : Option Nat
  /-- It waits for a lock a thread outside the schedule holds. -/
  outsideHolder : Bool

variable (b : Blocked)

def Blocked.shouldRepoll (mem : Memory) : Bool :=
  match b.key with
  | .addr addr =>
    let current := mem.signalVersion addr b.mask b.futexPrivate
    let signalled := b.signalVersion.any fun version => current != some version
    match b.futexValue with
    | some value => signalled || mem.futexValue addr != value
    | none => b.signalVersion.isNone || signalled
  | _ => false

/-- What the wait is for changed since it began, for a wait that records how to tell. -/
def Blocked.changedOutside (mem : Memory) : Bool :=
  (b.signalVersion.isSome || b.futexValue.isSome) && b.shouldRepoll mem

/-- Whether a futex wake with this mask and scope reaches the wait. -/
def Blocked.reached (mask : UInt32) (priv : Option Bool) : Bool :=
  b.mask &&& mask != 0 && priv.all fun scope => b.futexPrivate == some scope

structure Slot where
  /-- The grant pending in the thread's parker. -/
  latch : Option Grant := none
  runnable : Option DetWake := none
  /-- Waiting, with what for and when it began. -/
  blocked : Option (Blocked × Nat) := none
  /-- Re-polled for something outside the simulation, with the key it waited on. -/
  repolled : Option DetKey := none
  /-- Let go when the schedule detached, and not yet waiting in it again. -/
  letGo : Bool := false
  /-- Let go and now in a native wait, with the key a wake in the schedule releases it with. -/
  outside : Option DetKey := none
  /-- Caught in a spin, with whether its last step polled the clock. -/
  spinner : Option Bool := none

def foreignKeys : Nat := 64

structure ForeignKeys where
  keys : List (Option DetKey) := List.replicate foreignKeys none
  /-- The place the next key takes when none is free. -/
  next : Nat := 0

variable (f : ForeignKeys)

def ForeignKeys.insert (key : DetKey) : ForeignKeys :=
  if f.keys.contains (some key) then f
  else
    match f.keys.findIdx? Option.isNone with
    | some free => { f with keys := f.keys.set free (some key) }
    | none =>
      let next := (f.next + 1) % foreignKeys
      { keys := f.keys.set next (some key), next }

def ForeignKeys.remove (key : DetKey) : ForeignKeys × Bool :=
  match f.keys.findIdx? (· == some key) with
  | some i => ({ f with keys := f.keys.set i none }, true)
  | none => (f, false)

def ForeignKeys.clear : ForeignKeys :=
  { f with keys := List.replicate foreignKeys none }

def unexplainedKeys : Nat := 16

/-- `OWNED_MUTEXES`: the table of mutex owners holds one fewer. -/
def ownedMutexes : Nat := 1024

def external : Nat := u64Max

/-- The count of a wake that reaches every waiter, `usize::MAX`. -/
def everyone : Nat := u64Max

structure State where
  /-- The thread allowed to run. -/
  holder : Option Nat := none
  threads : SortedMap Nat Slot := .empty
  /-- How many threads are ready to run. -/
  runnable : Nat := 0
  /-- How many threads are waiting. -/
  blocked : Nat := 0
  nextWait : Nat := 0
  /-- The last thread handed the baton: the round-robin cursor. -/
  last : Nat := 0
  /-- Threads that have left the domain. -/
  exited : List Nat := []
  roots : Nat := 0
  /-- Keys a wake from outside reached while none of their waiters was blocked. -/
  foreign : ForeignKeys := {}
  /-- Which thread holds each mutex, by address: the map that the source's table is shown to be
  (`owners_refine`). -/
  owners : SortedMap Nat Nat := .empty
  /-- Keys a re-polled waiter made progress on that no wake of the schedule's own explains yet. -/
  unexplained : List DetKey := []

namespace State

/-! ## A thread's slot -/

variable (st : State) (t : Nat)

def slot : Option Slot := st.threads.get? t

def modify (t : Nat) (f : Slot → Slot) : State :=
  { st with threads := st.threads.modify t f }

def insertSlot : State :=
  { st with threads := st.threads.alter t fun slot => some (slot.getD {}) }

def remove : State := { st with threads := st.threads.erase t }

theorem slot_modify (f : Slot → Slot) (t' : Nat) :
    (st.modify t f).slot t' = (st.slot t').map fun slot => if t' = t then f slot else slot := by
  refine (st.threads.get?_modify t t' f).trans ?_
  split
  · next heq => rw [heq, slot]
  · exact Option.map_id'.symm

theorem slot_insertSlot (t' : Nat) :
    (st.insertSlot t).slot t' = if t' = t then some ((st.slot t).getD {}) else st.slot t' :=
  SortedMap.get?_alter _ _ _ _

variable (why : DetWake)

/-- Makes a thread ready to run, replacing why it was made ready if it already was. -/
def setRunnable : State :=
  match st.slot t with
  | none => st
  | some slot =>
    { st.modify t fun slot => { slot with runnable := some why } with
      runnable := if slot.runnable.isNone then st.runnable + 1 else st.runnable }

def setRunnableIfNot : State :=
  if (st.slot t).any (·.runnable.isNone) then st.setRunnable t why else st

def takeRunnable : State × Option DetWake :=
  match (st.slot t).bind (·.runnable) with
  | none => (st, none)
  | some why =>
    ({ st.modify t fun slot => { slot with runnable := none } with
        runnable := st.runnable - 1 }, some why)

def isRunnable : Bool := (st.slot t).any (·.runnable.isSome)

/-- Records a thread waiting, after every wait begun before it. -/
def setBlocked (b : Blocked) : State :=
  match st.slot t with
  | none => st
  | some slot =>
    { st.modify t fun slot => { slot with blocked := some (b, st.nextWait) } with
      blocked := if slot.blocked.isNone then st.blocked + 1 else st.blocked
      nextWait := st.nextWait + 1 }

def takeBlocked : State × Option Blocked :=
  match (st.slot t).bind (·.blocked) with
  | none => (st, none)
  | some (b, _) =>
    ({ st.modify t fun slot => { slot with blocked := none } with
        blocked := st.blocked - 1 }, some b)

def unblock : State :=
  match st.takeBlocked t with
  | (st, some _) => st.setRunnable t why
  | (st, none) => st

/-- A re-polled waiter did something: progress, unless it only blocked again on the same key, which
is held back until a wake of the schedule's explains it. -/
def settleRepoll (blockedOn : Option DetKey) : State :=
  match (st.slot t).bind (·.repolled) with
  | none => st
  | some key =>
    let st := st.modify t fun slot => { slot with repolled := none }
    if blockedOn ≠ some key ∧ st.unexplained.length < unexplainedKeys then
      { st with unexplained := st.unexplained ++ [key] }
    else st

variable (key : DetKey)

def explain : State :=
  { st with
    threads := st.threads.map fun _ slot =>
      if slot.repolled = some key then { slot with repolled := none } else slot
    unexplained := st.unexplained.filter (· ≠ key) }

/-! ## Waking waiters -/

def unblockAll (hit : Slot → Bool) (why : DetWake) : State :=
  st.threads.keys.foldl (fun st t => if (st.slot t).any hit then st.unblock t why else st) st

/-- The thread that began its wait first, of those `waiting` gives the start of a wait for. -/
def oldest (waiting : Slot → Option Nat) : Option Nat :=
  let first := st.threads.entries.foldl (fun best e =>
    match waiting e.2, best with
    | none, _ => best
    | some order, none => some (order, e.1)
    | some order, some (order', t) =>
      if order < order' then some (order, e.1) else some (order', t))
    (none : Option (Nat × Nat))
  first.map Prod.snd

def unblockOldest (waiting : Slot → Option Nat) (why : DetWake) : Nat → State → State
  | 0, st => st
  | n + 1, st =>
    match st.oldest waiting with
    | none => st
    | some t => unblockOldest waiting why n (st.unblock t why)

variable (n : Nat)

/-- Wakes the waiters on a key that `hit` accepts, oldest first, up to `n`: in one pass when `n`
reaches them all, else one pass each. Returns how many. -/
def wakeKeyMatching (why : DetWake) (hit : Blocked → Bool) :
    State × Nat :=
  let waiting := fun slot : Slot =>
    (slot.blocked.filter fun (wait, _) => wait.key == key && hit wait).map Prod.snd
  let all := st.threads.count fun slot => (waiting slot).isSome
  if n ≥ all then (st.unblockAll (fun slot => (waiting slot).isSome) why, all)
  else (unblockOldest waiting why n st, n)

def wakeKeyMasked (mask : UInt32) (why : DetWake) :
    State × Nat :=
  st.wakeKeyMatching key n why fun wait => wait.mask &&& mask != 0

def wakeKey (why : DetWake) : State × Nat :=
  st.wakeKeyMasked key n 0xffffffff why

def wakeReadinessKey (event : ReadinessWake) : State × Nat :=
  st.wakeKeyMatching .readiness everyone .woken fun wait =>
    wait.readiness.all fun interest => interest.matches event

/-- Queues a let-go thread in a native wait on the key, unless `n` have been. -/
def wakeOutsideOne (acc : State × Nat) (t : Nat) : State × Nat :=
  let (st, woken) := acc
  if woken = n then acc
  else
    match st.slot t with
    | none => acc
    | some slot =>
      if slot.outside ≠ some key then acc
      else
        ({ st.modify t fun slot => { slot with outside := none, runnable := some .woken } with
            runnable := if slot.runnable.isNone then st.runnable + 1 else st.runnable },
          woken + 1)

/-- Queues up to `n` let-go threads in a native wait on the key, lowest lineage first, to take the
baton when their wait returns. -/
def wakeOutside : State × Nat :=
  st.threads.keys.foldl (wakeOutsideOne key n) (st, 0)

def wakeForeignLocked (mask : UInt32) (priv : Option Bool) :
    State × Nat :=
  let (st, woken) := st.wakeKeyMatching key n .woken fun wait => wait.reached mask priv
  (if woken = 0 then { st with foreign := st.foreign.insert key } else st, woken)

/-- Times out every blocked thread that `hit` accepts and whose deadline has been reached. -/
def releaseDueMatching (now : Option Nat) (hit : Blocked → Bool) : State :=
  match now with
  | none => st
  | some now =>
    st.unblockAll
      (fun slot => slot.blocked.any fun (b, _) => b.deadline.any (fun at_ => now ≥ at_) && hit b)
      .timedOut

def releaseDue (now : Option Nat) : State := st.releaseDueMatching now fun _ => true

/-- Unblocks a waiter to look again at what it waits for, and notes the key. -/
def repoll (key : DetKey) : State :=
  (st.unblock t .woken).modify t fun slot => { slot with repolled := some key }

def repollAddrWaiters (mem : Memory) : State :=
  st.threads.keys.foldl (fun st t =>
    match ((st.slot t).bind (·.blocked)).filter fun (b, _) => b.shouldRepoll mem with
    | none => st
    | some (b, _) => st.repoll t b.key) st

/-- Forgets the mutexes a leaving thread holds, and makes their waiters runnable to try again.
Returns whether it held any. -/
def disown (me : Nat) : State × Bool :=
  let held := (st.owners.entries.filter (·.2 = me)).map Prod.fst
  (held.foldl (fun st addr =>
      ({ st with owners := st.owners.erase addr }.wakeKey (.addr addr) everyone .woken).1) st,
    !held.isEmpty)

/-! ## Handing the baton on -/

def next : Option Nat :=
  ((st.threads.entries.find? fun e => st.last < e.1 && e.2.runnable.isSome).or
    (st.threads.entries.find? fun e => e.2.runnable.isSome)).map Prod.fst

/-- Hands the baton to the next runnable thread; `none` if no thread is runnable. -/
def grantNext : Option State :=
  st.next.map fun t =>
    let (st, why) := st.takeRunnable t
    { st.modify t fun slot => { slot with latch := some (.run (why.getD .woken)) } with
      holder := some t
      last := t }

def grantIfIdle : State := if st.holder.isNone then st.grantNext.getD st else st

/-- The first blocked thread takes over moving the schedule on, unless a grant is pending. -/
def delegate : State :=
  match st.threads.entries.find? fun e => e.2.blocked.isSome with
  | none => st
  | some (t, _) => st.modify t fun slot => { slot with latch := slot.latch.or (some .dispatch) }

/-- Lets go of the baton: to the next runnable thread, or the duty of moving the schedule on to the
first blocked one. -/
def handOn : State :=
  let st := { st with holder := none }
  st.grantNext.getD st.delegate

def idle : Bool := st.holder.isNone && st.runnable == 0

def running : Option Nat :=
  (st.holder.filter (· ≠ external)).or
    ((st.threads.entries.find? fun e => e.2.runnable.isSome).map Prod.fst)

/-- Whether a blocked thread waits on a word in static data or on a lock it knows a thread outside
the schedule holds. -/
def blockedOnSharedWord (inStaticImage : Nat → Bool) : Bool :=
  st.threads.entries.any fun e => e.2.blocked.any fun (b, _) =>
    b.outsideHolder || match b.key with
      | .addr addr => inStaticImage addr
      | _ => false

end State

end Snare.Sched
