import Snare.Time.Timers

/-!
# The virtual clock

`Clock` of `clock.rs` on a Unix host. The reading runs in a base mode (discrete-event, or
as-fast-as-possible, where a read ticks it and a sleep jumps it), scaled to real time along a line,
or driven by an executive along a grant clamped to its horizon.

The operations run one after another, so the seqlock, the `control` mutex and the atomics are plain
state. Each function takes the samples of the real clock it makes as arguments, in the order it
makes them. Rates are in 32.32 fixed point, as `rate_to_q32` leaves them.
-/

namespace Snare.Time

structure Line where
  anchorV : Nat
  anchorReal : Nat
  rateQ32 : Nat
  /-- The virtual time the line never passes. -/
  horizon : Nat

/-- The virtual reading at real time `real`; a `real` before the anchor reads `anchorV`. -/
def Line.valueAt (l : Line) (real : Nat) : Nat :=
  min (min (l.anchorV + (real - l.anchorReal) * l.rateQ32 / 2 ^ 32) u64Max) l.horizon

/-- The earliest real time at which the line reaches `v`, rounded up; `none` if it never does. -/
def Line.realAt (l : Line) (v : Nat) : Option Nat :=
  if v > l.horizon then none
  else if v ≤ l.anchorV then some l.anchorReal
  else if l.rateQ32 = 0 then none
  else some (min (l.anchorReal + divCeil ((v - l.anchorV) * 2 ^ 32) l.rateQ32) u64Max)

/-- The earliest monotonic time past `t` at which the code under test sees the clock move. -/
def creepPast (t : Nat) : Nat := satAdd t 1

/-- How long, in real nanoseconds, a clock spin waits for a waiter the clock already reached. -/
def spinSettle : Nat := 5000000

def startGrain : Nat := 1000000000

structure Clock where
  /-- The reading in a base mode, and the line's anchor while scaled or driven. -/
  monotonicNanos : Nat := 0
  /-- The monotonic reading sim time counts from. -/
  origin : Nat := 0
  /-- Discrete-event base mode, rather than as-fast-as-possible. -/
  discrete : Bool := true
  paused : Bool := false
  anchorReal : Nat := 0
  /-- Non-zero while scaled to real time, also through a pause, or while a grant flows. -/
  rateQ32 : Nat := 0
  horizon : Nat := u64Max
  /-- The highest reading handed out along a line. -/
  floor : Nat := 0
  /-- Set for a deterministic sim. -/
  deterministic : Bool := false
  /-- Owned by an executive. -/
  driven : Bool := false
  /-- While an executive's timestamp is open, the time it runs at; else 0. -/
  stamp : Nat := 0
  /-- Timers were pruned on registration; the next time skip reports them as fired. -/
  fired : Bool := false
  /-- When a clock spin first found a reached wait not yet taken; 0 while there is none. -/
  spinDueSince : Nat := 0
  /-- A time skip or a quiescence check held off for a reached wait. -/
  held : Bool := false
  /-- The participants' timers. -/
  pending : Timers := {}
  /-- The timers of threads that are not participants. -/
  foreign : Timers := {}
  dormant : Bool := false
  dormantV : Nat := 0
  dormantReal : Nat := 0
  /-- What holds the clock to real time for something outside the sim. -/
  outside : Nat := 0
  outsideV : Nat := 0
  outsideReal : Nat := 0
  /-- The child processes among them. -/
  children : Nat := 0

namespace Clock

variable (c : Clock)

def startAt (monotonic realtime : Nat) : Clock :=
  let start := if monotonic = 0 ∧ realtime = 0 then 0
    else min ((satAdd monotonic startGrain + startGrain - 1) / startGrain * startGrain) u64Max
  { c with origin := start
           monotonicNanos := max c.monotonicNanos start
           floor := max c.floor start }

/-- The clock of a sim as its threads begin to run: its base mode, whether it refuses real-time
rates, and the highest earlier readings of the process. -/
def begin (discrete deterministic : Bool) (monotonic realtime : UInt64) : Clock :=
  startAt { discrete, deterministic } monotonic.toNat realtime.toNat

/-! ## Readings -/

def isScaled : Bool := c.rateQ32 != 0

def jumps : Bool :=
  !c.discrete && !c.paused && !c.isScaled && !c.driven && !c.dormant

def line : Line := ⟨c.monotonicNanos, c.anchorReal, c.rateQ32, c.horizon⟩

def heldValue : Nat := max c.monotonicNanos c.floor

/-- The line's reading now, never below a reading already handed out; it raises `floor`. -/
def lineValue (real : Nat) : Clock × Nat :=
  let v := max c.floor (c.line.valueAt real)
  ({ c with floor := v }, v)

/-- The current monotonic reading, without ticking. Ignores an open timestamp. -/
def peek (real : Nat) : Clock × Nat :=
  if c.driven then c.lineValue real
  else if c.paused || !c.isScaled then (c, c.heldValue)
  else c.lineValue real

/-- Re-anchors a base or scaled line at `target` of the reading now, running at a rate or held. -/
def publish (real rateQ32 : Nat) (paused : Bool) (target : Nat → Nat) : Clock :=
  let now := if c.paused || !c.isScaled then c.heldValue
    else max (c.line.valueAt real) c.heldValue
  { c with monotonicNanos := max c.monotonicNanos (target now)
           anchorReal := real
           rateQ32
           horizon := u64Max
           paused }

/-- Publishes a whole line; `monotonicNanos` only rises. -/
def publishLine (anchorV anchorReal rateQ32 horizon : Nat) : Clock :=
  { c with monotonicNanos := max c.monotonicNanos anchorV, anchorReal, rateQ32, horizon }

/-- Moves a base-mode reading `by_` on from the highest value handed out: the readings before and
after. -/
def stepBase (by_ : Nat) : Clock × Nat × Nat :=
  let before := max c.monotonicNanos c.floor
  let after := satAdd before by_
  ({ c with monotonicNanos := after, floor := max c.floor after }, before, after)

/-- The reading the code under test gets: ticking an as-fast-as-possible clock 1 µs, and at an open
timestamp's time while one is open. -/
def advance (real : Nat) : Clock × Nat :=
  if !c.jumps then
    let (c', v) := c.peek real
    (c', max v c.stamp)
  else
    let (c', _, after) := c.stepBase 1000
    (c', after)

/-- Jumps an as-fast-as-possible clock forward to `wake`, as its sleeps do. -/
def jumpTo (wake : Nat) : Clock :=
  if c.jumps then { c with monotonicNanos := max c.monotonicNanos wake } else c

/-! ## Delivering timers -/

/-- Delivers what is due by `t` in both tables: the count of what the participants' table held in
`(from_, t]`, and the wakers taken. -/
def fireUpto (from_ t : Nat) : Clock × Nat × List Nat :=
  let hold := !c.deterministic
  let (pending, count, wakers) := c.pending.fireUpto hold false from_ t
  let (foreign, _, more) := c.foreign.fireUpto false true from_ t
  ({ c with pending, foreign, held := c.held || (hold && !wakers.isEmpty) }, count, wakers ++ more)

def takeWakers (t : Nat) : Clock × List Nat :=
  let hold := !c.deterministic
  let (pending, wakers) := c.pending.takeWakers hold t
  let (foreign, more) := c.foreign.takeWakers false t
  ({ c with pending, foreign, held := c.held || (hold && !wakers.isEmpty) }, wakers ++ more)

def prune (upto : Nat) : Clock × Bool × List Nat :=
  let (pending, any, wakers) := takeUpto c.pending upto
  ({ c with pending }, any, wakers)

def reached (before after : Nat) : Bool :=
  c.pending.reached before after || c.foreign.reached before after

def isDue (now : Nat) : Bool := c.pending.entries.entries.any fun e => e.1 ≤ now

/-! ## Charges and spins -/

/-- Raises a driven clock's horizon just past `t` when a participant timer falls exactly there, but
never to an open timestamp. -/
def creepPastTimerAt (t : Nat) : Clock :=
  let reach := creepPast t
  if c.stamp ≠ 0 ∧ reach ≥ c.stamp then c
  else if (c.pending.entries.get? t).isNone then c
  else c.publishLine c.monotonicNanos c.anchorReal c.rateQ32 reach

/-- `charge` on a driven clock: moves `floor` up to `latency` on, clamped to the horizon. -/
def chargeDriven (real latency : Nat) : Clock × Bool × List Nat :=
  let (c, before) := c.peek real
  let after := min (satAdd before latency) c.horizon
  if after ≤ before then (c, false, [])
  else
    let horizon := c.horizon
    let c := { c with floor := max c.floor after }
    let c := if after = horizon then c.creepPastTimerAt after else c
    let reached := c.reached before after
    let (c, _, wakers) := c.fireUpto before after
    (c, reached, wakers)

/-- A call of the code under test takes `latency`: whether it reached a deadline, and the wakers. -/
def charge (real latency : Nat) : Clock × Bool × List Nat :=
  if c.driven then c.chargeDriven real latency
  else if c.discrete && !c.paused && !c.isScaled then
    let (c, before, after) := c.stepBase latency
    let reached := c.reached before after
    let (c, _, wakers) := c.fireUpto before after
    (c, reached, wakers)
  else (c, false, [])

inductive SpinStep where
  | held
  | runs
  | waking
  | moved (fired : Bool)

/-- One step of a participant's clock spin; the second sample is taken only where a reached wait is
not yet taken. -/
def spinStep (real real' step : Nat) : Clock × SpinStep × List Nat :=
  if c.paused || c.driven then (c, .held, [])
  else if !c.discrete || c.isScaled then (c, .runs, [])
  else
    let (c, now) := c.peek real
    let settling := !c.deterministic && c.isDue now
    let since := if c.spinDueSince = 0 then max real' 1 else c.spinDueSince
    if settling && max real' 1 - since < spinSettle then
      ({ c with spinDueSince := since }, .waking, [])
    else
      let c := { c with spinDueSince := 0 }
      let target := satAdd now (max step 1)
      let landing := match c.pending.nextAfter now with
        | some at_ =>
          if target ≥ at_ ∧ now < at_ - 1 then at_ - 1
          else if target ≥ at_ then creepPast at_
          else target
        | none => target
      let (c, before, after) := c.stepBase (landing - now)
      let fired := c.reached before after
      let (c, _, wakers) := c.fireUpto before after
      (c, .moved fired, wakers)

/-! ## Time skips -/

variable (real real' : Nat)

def setDormant (on : Bool) : Clock :=
  if on then
    let (c, v) := c.peek real
    { c with dormant := true, dormantV := v, dormantReal := real' }
  else { c with dormant := false }

/-- Counts something that holds the clock to real time in or out. -/
def holdOutside (on : Bool) : Clock :=
  if !on then { c with outside := c.outside - 1 }
  else if c.outside = 0 then
    let (c, v) := c.peek real
    { c with outside := 1, outsideV := v, outsideReal := real' }
  else { c with outside := c.outside + 1 }

def releaseChildren (gone : Nat) : Clock :=
  let gone := min gone c.children
  { c with children := c.children - gone, outside := c.outside - gone }

/-- The furthest a time skip may land while dormant or holding for the outside. -/
def paceLimit : Option Nat :=
  let outside := if c.outside > 0 then some (satAdd c.outsideV (real - c.outsideReal)) else none
  let dormant := if c.dormant then some (satAdd c.dormantV (real' - c.dormantReal)) else none
  match dormant, outside with
  | some dormant, some outside => some (min dormant outside)
  | dormant, outside => dormant.or outside

/-- The discrete time skip: prunes reached deadlines and jumps just past the earliest pending one.
Whether time moved, and the wakers to run. -/
def skipToNextDeadline (real real' gone : Nat) : Clock × Bool × List Nat :=
  let (c, now) := c.peek real
  if !c.deterministic && reachedWait c.pending now then ({ c with held := true }, false, [])
  else
    let (c, _, pruned) := c.prune now
    match c.pending.entries.entries.head? with
    | none => (c, false, pruned)
    | some (next, _) =>
      let c := c.releaseChildren gone
      if (c.paceLimit real real').any (· ≤ next) then (c, false, pruned)
      else
        let landing := creepPast next
        let c := { c with monotonicNanos := max c.monotonicNanos landing }
        let (c, more) := c.takeWakers landing
        (c, true, pruned ++ more)

/-- The quiescence time-skip. A scaled clock moves on its own, so it fires the timers real time has
already carried it past. -/
def advanceToNextDeadline (real real' gone : Nat) : Clock × Bool × List Nat :=
  if c.paused || c.driven then (c, false, [])
  else if c.isScaled then
    let (c, now) := c.peek real
    let (c, any, pruned) := c.prune now
    ({ c with fired := false }, c.fired || any, pruned)
  else if !c.discrete && !c.dormant then (c, false, [])
  else c.skipToNextDeadline real real' gone

/-- Jumps a running discrete clock just past its earliest pending deadline, foreign or not. -/
def advanceToNextAnyDeadline (real real' gone : Nat) : Clock × Bool × List Nat :=
  if c.paused || c.isScaled || (!c.discrete && !c.dormant) || c.driven then (c, false, [])
  else
    let (c, now) := c.peek real
    if !c.deterministic && (reachedWait c.pending now || reachedWait c.foreign now) then
      ({ c with held := true }, false, [])
    else
      let (c, _, pruned) := c.prune now
      let (foreign, _, more) := takeUpto c.foreign now
      let c := { c with foreign }
      let first (t : Timers) : Option Nat := t.entries.entries.head?.map Prod.fst
      let next := match first c.pending, first c.foreign with
        | some a, some b => some (min a b)
        | a, b => a.or b
      match next with
      | none => (c, false, pruned ++ more)
      | some next =>
        let c := c.releaseChildren gone
        if (c.paceLimit real real').any (· ≤ next) then (c, false, pruned ++ more)
        else
          let landing := creepPast next
          let c := { c with monotonicNanos := max c.monotonicNanos landing }
          let (c, taken) := c.takeWakers landing
          (c, true, pruned ++ more ++ taken)

/-! ## Rates and writers -/

/-- A rate as `set_rate` takes it: 0.0, finite, or infinite. -/
inductive Rate where
  | pause
  | scaled (q32 : UInt64)
  | base

def setRate (real : Nat) : Rate → Clock
  | .pause => if c.driven || c.paused then c else c.publish real c.rateQ32 true id
  | .scaled q32 => if c.driven then c else c.publish real q32.toNat false id
  | .base => if c.driven then c else c.publish real 0 false id

/-- Restarts a paused clock in the mode and at the rate it had before the pause. -/
def resume (real : Nat) : Clock :=
  if !c.paused || c.driven then c else c.publish real c.rateQ32 false id

def advanceBy (real d : Nat) : Clock :=
  if d = 0 || c.driven then c
  else c.publish real c.rateQ32 c.paused fun now => satAdd now d

/-- Sets sim time to `value`, forward only: the current sim time if `value` lies before it. -/
def setValue (real real' value : Nat) : Clock × Option Nat :=
  let value := satAdd c.origin value
  let (c, now) := c.peek real
  if c.driven then (c, none)
  else if value < now then (c, some (now - c.origin))
  else if value > now then (c.publish real' c.rateQ32 c.paused fun now => max now value, none)
  else (c, none)

/-! ## Driven by an executive -/

/-- Hands the clock to an executive: it holds at the current reading until the first grant. -/
def attachDriven : Clock :=
  let (c, now) := c.peek real
  { c.publishLine now real' 0 now with driven := true, paused := false }

def detachDriven : Clock :=
  if !c.driven then c
  else
    let (c, v) := c.peek real
    let now := max v c.stamp
    { c.publishLine now real' 0 u64Max with
      floor := max c.floor now, stamp := 0, driven := false }

/-- Runs a driven clock along a new line; an anchor behind the current reading moves to the reading,
now. -/
def grant (real real' anchorV anchorReal rateQ32 horizon : Nat) : Clock :=
  if !c.driven then c
  else
    let (c, now) := c.peek real
    let (anchorV, anchorReal) := if anchorV ≥ now then (anchorV, anchorReal) else (now, real')
    c.publishLine anchorV anchorReal rateQ32 (max horizon anchorV)

def freeze : Clock :=
  if !c.driven then c
  else
    let (c, now) := c.peek real
    c.publishLine now real' 0 now

/-- Where a jump to `t` from `now` is aimed: with `toNext` at the earliest participant timer after
`now` if that comes first. -/
def landing (now t : Nat) (toNext : Bool) : Nat :=
  match (c.pending.nextAfter now).filter fun _ => toNext with
  | some next => min next t
  | none => t

/-- Moves a driven clock forward to `t`, or with `toNext` to the earliest participant timer after
the reading if that is first, with `past` just past it; the horizon is raised to reach it. The
readings before and after. -/
def jumpDriven (real real' t : Nat) (toNext past : Bool) : Clock × Nat × Nat :=
  let (c, now) := c.peek real
  if !c.driven then (c, now, now)
  else
    let dest := max now (c.landing now t toNext)
    let reach := if past then creepPast dest else dest
    (c.publishLine dest real' c.rateQ32 (max c.horizon reach), now, dest)

def setStamp (t : Option Nat) : Clock := { c with stamp := t.getD 0 }

/-! ## Registering timers -/

/-- Registers a timed wait of `after` from now, or an event; `none` on a running as-fast-as-possible
clock and for an event already due. On a scaled clock the participant timers it has passed are
pruned. -/
def registerTimer (real after : Nat) (foreign event : Bool) (me : Nat) :
    Clock × Option Nat × List Nat :=
  if c.jumps || (event && after == 0) then (c, none, [])
  else
    let (c, now) := c.peek real
    let wake := satAdd now after
    if foreign then ({ c with foreign := c.foreign.addPending wake event me }, some wake, [])
    else
      let (c, pruned) :=
        if c.isScaled && !c.driven && c.pending.entries.entries.head?.any (·.1 ≤ now) then
          let (c, _, pruned) := c.prune now
          ({ c with fired := true }, pruned)
        else (c, [])
      ({ c with pending := c.pending.addPending wake event me }, some wake, pruned)

def addPending (wake : Nat) (me : Nat) : Clock :=
  { c with pending := c.pending.addPending wake false me }

/-- Registers a waker under the id `id`; `false` on a running as-fast-as-possible clock. -/
def registerWake (at_ id : Nat) (foreign : Bool) (owner : Option Nat) : Clock × Bool :=
  if c.jumps then (c, false)
  else if foreign then ({ c with foreign := c.foreign.registerWake at_ id owner }, true)
  else ({ c with pending := c.pending.registerWake at_ id owner }, true)

/-- Once no reached wait is left untaken, the waiters a time skip held off are let go. -/
def releaseHeld (real : Nat) : Clock :=
  if !c.held then c
  else
    let (c, now) := c.peek real
    if reachedWait c.pending now || reachedWait c.foreign now then c else { c with held := false }

/-- Cancels a registered wake, in whichever table it is; the waker if it was not yet delivered, and
whether the tables' index was found broken. -/
def cancelWake (real id : Nat) : Clock × Option Nat × Bool :=
  match c.pending.cancelWake id with
  | .done pending waker => ({ c with pending }.releaseHeld real, waker, false)
  | .panicked => (c, none, true)
  | .absent =>
    match c.foreign.cancelWake id with
    | .done foreign waker => ({ c with foreign }.releaseHeld real, waker, false)
    | .panicked => (c, none, true)
    | .absent => (c, none, false)

/-- Drops one wait at `wake`, looking first among the foreign timers if `foreign`, then in the other
table. -/
def unregisterTimer (real wake : Nat) (foreign : Bool) (me : Nat) : Clock :=
  let inPending := (c.pending.unregisterTimer wake me).map fun pending => { c with pending }
  let inForeign := (c.foreign.unregisterTimer wake me).map fun foreign => { c with foreign }
  let found := if foreign then inForeign.or inPending else inPending.or inForeign
  (found.getD c).releaseHeld real

def unregisterEvent (wake : Nat) : Clock :=
  { c with pending := c.pending.unregisterEvent wake }

def wakeDue (real : Nat) : Clock × List Nat :=
  let (c, now) := c.peek real
  c.takeWakers now

end Clock

end Snare.Time
