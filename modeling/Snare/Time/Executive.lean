import Snare.Time.World

/-!
# The executive

`Executive` of `executive.rs`: an outside simulation that owns the sim's clock while it lives, moves
it along grants and by jumps, and acts inside the sim at timestamps of its own.

The functions of `Snare.Time.Executive` are its methods, on the clock they share with the code under
test: they return the clock and the wakers handed out, and take the samples of the real clock they
make as `r 0`, `r 1`, … in the order they make them. What they ask of the sim's domain (whether it
is quiescent, which no clock state decides) is an argument.

`Session` interleaves the calls with the operations of everyone else.
-/

namespace Snare.Time

def Clock.atSimTime (c : Clock) (t : Nat) : Nat := satAdd c.origin t

namespace Executive

variable (c : Clock)

def attachTo (r : Nat → Nat) : Clock × List Nat :=
  let c := c.attachDriven (r 0) (r 1)
  let (c, now) := c.peek (r 2)
  let (c, _, wakers) := c.fireUpto now now
  (c, wakers)

/-- Delivers what the clock moved past from `before` to `after`. -/
def releasePassed (real before after : Nat) : Clock × List Nat :=
  let fire (c : Clock) : Clock × List Nat :=
    let (c, _, wakers) := c.fireUpto before after
    (c, wakers)
  if after ≤ before then
    let (c, now) := c.peek real
    if c.isDue now then fire c else (c, [])
  else fire c

/-- Lets the clock run along the grant's line; a deterministic sim holds it instead of letting it
flow. -/
def grant (r : Nat → Nat) (anchorV anchorReal rateQ32 horizon : Nat) :
    Clock × List Nat :=
  let rate := if c.deterministic then 0 else rateQ32
  let (c, before) := c.peek (r 0)
  let c := c.grant (r 1) (r 2) (c.atSimTime anchorV) anchorReal rate (c.atSimTime horizon)
  let (c, after) := c.peek (r 3)
  releasePassed c (r 4) before after

/-- Whether a participant timer is due and not yet taken, or falls before `before`. -/
def timerBlocker (real real' : Nat) (before : Option Nat) : Clock × Bool :=
  let (c, now) := c.peek real
  if c.isDue now then (c, true)
  else
    match before with
    | none => (c, false)
    | some before =>
      let (c, now) := c.peek real'
      (c, (c.pending.nextAfter now).any (· < before))

/-- Moves the clock to `t`, or to the earliest participant timer before it, if the sim is quiescent;
else nothing is done. -/
def jumpTo (r : Nat → Nat) (t : Nat) (quiescent : Bool) : Clock × List Nat :=
  if !quiescent then (c, [])
  else
    let (c, blocked) := timerBlocker c (r 0) (r 0) none
    if blocked then (c, [])
    else
      let (c, before, landing) := c.jumpDriven (r 1) (r 2) (c.atSimTime t) true true
      let (c, _, wakers) := c.fireUpto before landing
      (c, wakers)

/-- Starts acting inside the sim at time `t`: the clock moves to just before it. -/
def enterTimestamp (real real' t : Nat) : Clock :=
  let target := c.atSimTime t
  let (c, _, _) := c.jumpDriven real real' (target - 1) false false
  c.setStamp (some target)

/-- `enterTimestamp`, only if the sim is quiescent and no participant timer falls before `t`;
whether it entered. -/
def enterTimestampChecked (r : Nat → Nat) (t : Nat) (quiescent : Bool) : Clock × Bool :=
  if !quiescent then (c, false)
  else
    let (c, blocked) := timerBlocker c (r 0) (r 1) (some (c.atSimTime t))
    if blocked then (c, false) else (enterTimestamp c (r 2) (r 3) t, true)

/-- Ends the timestamp at `t`: the clock moves to `t` and every timer due there comes due. -/
def leaveTimestamp (real real' t : Nat) : Clock × List Nat :=
  let target := c.atSimTime t
  let (c, before, _) := c.jumpDriven real real' target false true
  let (c, _, wakers) := c.fireUpto before target
  (c.setStamp none, wakers)

def flow (real : Nat) : Clock × List Nat :=
  let (c, now) := c.peek real
  let (c, _, wakers) := c.fireUpto now now
  (c, wakers)

end Executive

/-! ## Interleaving -/

/-- What the code under test and the sim around it do to the clock: all but the executive's own
moves and the inner functions that deliver up to a given instant. -/
def Op.guest : Op → Bool
  | .attachDriven | .detachDriven | .grant .. | .freeze | .jumpDriven .. => false
  | .takeUpto .. | .takeWakers _ | .fireUpto .. => false
  | _ => true

/-- Whether an operation registers or drops timers of its caller. -/
def Op.edits : Op → Bool
  | .addPending .. | .registerTimer .. | .registerWake .. => true
  | .cancelWake _ | .unregisterTimer .. | .unregisterEvent _ => true
  | _ => false

inductive Call where
  | attach
  | grant (anchorV anchorReal rateQ32 horizon : UInt64)
  | freeze
  | jumpTo (t : UInt64) (quiescent : Bool)
  | enterTimestamp (t : UInt64)
  | enterTimestampChecked (t : UInt64) (quiescent : Bool)
  | leaveTimestamp (t : UInt64)
  | drop
  | flow
  | guest (op : { op : Op // op.guest = true })

/-- How many samples of the real clock a call makes. -/
def Call.samples : Call → Nat
  | .attach | .jumpTo .. => 3
  | .grant .. => 5
  | .enterTimestampChecked .. => 4
  | .flow => 1
  | _ => 2

/-- The clock after a call, and the wakers handed out. One executive attaches at a time, and only an
attached one calls. -/
def Clock.call (c : Clock) (r : Nat → Nat) (wakeId : Nat) : Call → Clock × List Nat
  | .attach => if c.driven then (c, []) else Executive.attachTo c r
  | .grant anchorV anchorReal rateQ32 horizon =>
    if !c.driven then (c, [])
    else Executive.grant c r anchorV.toNat anchorReal.toNat rateQ32.toNat horizon.toNat
  | .freeze => (c.freeze (r 0) (r 1), [])
  | .jumpTo t quiescent => if !c.driven then (c, []) else Executive.jumpTo c r t.toNat quiescent
  | .enterTimestamp t =>
    if !c.driven then (c, []) else (Executive.enterTimestamp c (r 0) (r 1) t.toNat, [])
  | .enterTimestampChecked t quiescent =>
    if !c.driven then (c, []) else ((Executive.enterTimestampChecked c r t.toNat quiescent).1, [])
  | .leaveTimestamp t =>
    if !c.driven then (c, []) else Executive.leaveTimestamp c (r 0) (r 1) t.toNat
  | .drop => (c.detachDriven (r 0) (r 1), [])
  | .flow => Executive.flow c (r 0)
  | .guest op =>
    let (c, effect) := c.apply (r 0) (r 1) wakeId op.1
    (c, effect.handed)

/-- A call, and the real time that passes before each of its samples. -/
structure Turn where
  call : Call
  waits : List Nat := []

/-- The sample `i` of a call that begins after `real`. -/
def sample (real : Nat) (waits : List Nat) (i : Nat) : Nat := real + (waits.take (i + 1)).sum

structure Session where
  clock : Clock
  /-- The real clock's last sample. -/
  real : Nat
  /-- The next id of `wake_id`. -/
  wakeId : Nat
  /-- The open timestamp was entered with the clock below it. -/
  below : Bool := false

/-- Whether a call enters a timestamp with the clock below it; `none` where it neither enters nor
leaves one. -/
def Call.entersBelow (c : Clock) (r : Nat → Nat) : Call → Option Bool
  | .enterTimestamp t => if c.driven then some ((c.peek (r 0)).2 < c.atSimTime t.toNat) else none
  | .enterTimestampChecked t quiescent =>
    if c.driven && (Executive.enterTimestampChecked c r t.toNat quiescent).2 then
      some ((c.peek (r 2)).2 < c.atSimTime t.toNat)
    else none
  | .leaveTimestamp _ | .drop => if c.driven then some false else none
  | _ => none

def Session.at_ (s : Session) (a : Turn) : Nat → Nat := sample s.real a.waits

def Session.handed (s : Session) (a : Turn) : List Nat := (s.clock.call (s.at_ a) s.wakeId a.call).2

def Session.step (s : Session) (a : Turn) : Session where
  clock := (s.clock.call (s.at_ a) s.wakeId a.call).1
  real := s.at_ a (a.call.samples - 1)
  wakeId := match a.call with
    | .guest op => if op.1.takesId s.clock then s.wakeId + 1 else s.wakeId
    | _ => s.wakeId
  below := (a.call.entersBelow s.clock (s.at_ a)).getD s.below

def Session.begin (discrete deterministic : Bool)
    (monotonic realtime : UInt64) (real wakeId : Nat) :
    Session :=
  { clock := Clock.begin discrete deterministic monotonic realtime, real, wakeId }

end Snare.Time
