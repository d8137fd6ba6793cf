import Snare.Time.Clock

/-!
# Runs of clock operations

The clock with the real clock it samples and the process's counter of wake ids. An action lets real
time pass and then runs one operation of the clock to its end, real time passing again between the
operation's two samples; so the samples of a run never decrease.
-/

namespace Snare.Time

/-- A clock operation of any thread: readings, writers, charges and skips, the executive's moves but
for its timestamps, and the timer tables. -/
inductive Op where
  | peek
  | advance
  | setRate (rate : Clock.Rate)
  | resume
  | advanceBy (d : UInt64)
  | setValue (value : UInt64)
  | charge (latency : UInt64)
  | spinStep (step : UInt64)
  | advanceToNextDeadline (gone : Nat)
  | advanceToNextAnyDeadline (gone : Nat)
  | jumpTo (wake : UInt64)
  | setDormant (on : Bool)
  | holdOutside (on : Bool)
  | holdChild
  | releaseChild
  | attachDriven
  | detachDriven
  | grant (anchorV anchorReal rateQ32 horizon : UInt64)
  | freeze
  | jumpDriven (t : UInt64) (toNext past : Bool)
  | addPending (wake : UInt64) (me : Nat)
  | registerTimer (after : UInt64) (foreign event : Bool) (me : Nat)
  | registerWake (at_ : UInt64) (foreign : Bool) (owner : Option Nat)
  | cancelWake (id : Nat)
  | unregisterTimer (wake : UInt64) (foreign : Bool) (me : Nat)
  | unregisterEvent (wake : UInt64)
  | wakeDue
  | takeUpto (foreign : Bool) (upto : UInt64)
  | takeWakers (t : UInt64)
  | fireUpto (from_ t : UInt64)
  /-- Another clock of the process takes a wake id. -/
  | otherWakeId

/-- What an operation does that its callers see: the reading it returns, the wakers it registers,
hands out and cancels, and whether it panicked. -/
structure Effect where
  reading : Option Nat := none
  registered : List Nat := []
  handed : List Nat := []
  cancelled : List Nat := []
  panicked : Bool := false

structure World where
  clock : Clock
  /-- The real clock's last sample. -/
  real : Nat
  /-- The next id of `wake_id`. -/
  wakeId : Nat

/-- The clock after an operation whose samples are `real` and `real'`, and what it did. -/
def Clock.apply (c : Clock) (real real' wakeId : Nat) : Op → Clock × Effect
  | .peek => let (c, v) := c.peek real; (c, { reading := some v })
  | .advance => let (c, v) := c.advance real; (c, { reading := some v })
  | .setRate rate => (c.setRate real rate, {})
  | .resume => (c.resume real, {})
  | .advanceBy d => (c.advanceBy real d.toNat, {})
  | .setValue value => ((c.setValue real real' value.toNat).1, {})
  | .charge latency =>
    let (c, _, handed) := c.charge real latency.toNat
    (c, { handed })
  | .spinStep step =>
    let (c, _, handed) := c.spinStep real real' step.toNat
    (c, { handed })
  | .advanceToNextDeadline gone =>
    let (c, _, handed) := c.advanceToNextDeadline real real' gone
    (c, { handed })
  | .advanceToNextAnyDeadline gone =>
    let (c, _, handed) := c.advanceToNextAnyDeadline real real' gone
    (c, { handed })
  | .jumpTo wake => (c.jumpTo wake.toNat, {})
  | .setDormant on => (c.setDormant real real' on, {})
  | .holdOutside on => (c.holdOutside real real' on, {})
  | .holdChild =>
    let c := c.holdOutside real real' true
    ({ c with children := c.children + 1 }, {})
  | .releaseChild => (c.releaseChildren 1, {})
  | .attachDriven => (c.attachDriven real real', {})
  | .detachDriven => (c.detachDriven real real', {})
  | .grant anchorV anchorReal rateQ32 horizon =>
    (c.grant real real' anchorV.toNat anchorReal.toNat rateQ32.toNat horizon.toNat, {})
  | .freeze => (c.freeze real real', {})
  | .jumpDriven t toNext past => ((c.jumpDriven real real' t.toNat toNext past).1, {})
  | .addPending wake me => (c.addPending wake.toNat me, {})
  | .registerTimer after foreign event me =>
    let (c, _, handed) := c.registerTimer real after.toNat foreign event me
    (c, { handed })
  | .registerWake at_ foreign owner =>
    let (c, done) := c.registerWake at_.toNat wakeId foreign owner
    (c, { registered := if done then [wakeId] else [] })
  | .cancelWake id =>
    let (c, waker, panicked) := c.cancelWake real id
    (c, { cancelled := waker.toList, panicked })
  | .unregisterTimer wake foreign me => (c.unregisterTimer real wake.toNat foreign me, {})
  | .unregisterEvent wake => (c.unregisterEvent wake.toNat, {})
  | .wakeDue => let (c, handed) := c.wakeDue real; (c, { handed })
  | .takeUpto false upto =>
    let (pending, _, handed) := Time.takeUpto c.pending upto.toNat
    ({ c with pending }, { handed })
  | .takeUpto true upto =>
    let (foreign, _, handed) := Time.takeUpto c.foreign upto.toNat
    ({ c with foreign }, { handed })
  | .takeWakers t => let (c, handed) := c.takeWakers t.toNat; (c, { handed })
  | .fireUpto from_ t =>
    let (c, _, handed) := c.fireUpto from_.toNat t.toNat
    (c, { handed })
  | .otherWakeId => (c, {})

/-- An operation, and the real time that passes before its first sample and before its second. -/
structure Action where
  op : Op
  wait : Nat := 0
  wait' : Nat := 0

def Op.takesId (c : Clock) : Op → Bool
  | .registerWake .. => !c.jumps
  | .otherWakeId => true
  | _ => false

def World.effect (w : World) (a : Action) : Effect :=
  (w.clock.apply (w.real + a.wait) (w.real + a.wait + a.wait') w.wakeId a.op).2

def World.step (w : World) (a : Action) : World where
  clock := (w.clock.apply (w.real + a.wait) (w.real + a.wait + a.wait') w.wakeId a.op).1
  real := w.real + a.wait + a.wait'
  wakeId := if a.op.takesId w.clock then w.wakeId + 1 else w.wakeId

def World.begin (discrete deterministic : Bool) (monotonic realtime : UInt64) (real wakeId : Nat) :
    World :=
  ⟨Clock.begin discrete deterministic monotonic realtime, real, wakeId⟩

end Snare.Time
