import Mathlib

/-!
# Watches on real descriptors

A watch holds real descriptors in a probe of the OS, which turns readable when one of them changes
and stays so until it is drained. Any number of threads may wait on one watch; the registry has one
entry for it. Before a thread looks at its descriptors it drains the probe and arms the entry, and
the `snare-real-fds` thread blocks on the probes of the armed entries and wakes their waiters.

* **`Wait`**: a thread's wait on a watch, and where it stands in `arm`, `look` and its end;
* **`Round`**: where the watcher thread stands in a round;
* **`Act`**, **`step`**: the registry's sections and the atomic accesses, in any order; one that is
  not the next of its wait, or of the watcher, does nothing.

A watch belongs to the fabric that made it, and so do all its waits: the domain is the watch's. A
thread that goes over to another watch starts the new wait before it ends the old one, so that they
are two waits here.
-/

namespace Snare.RealFd

open Function

/-- A watch, as the registry and the watcher thread see it. -/
structure Entry where
  waiting : Bool := false
  armed : Bool := false
  outside : Bool := false
  /-- It stands for a child process rather than a watch. -/
  child : Bool := false
  deriving DecidableEq

inductive Stage where
  /-- In `arm`: the entry is to be armed, the watcher poked, the descriptors looked at for one that
  a child process may write, the clock told and the entry marked. -/
  | arm
  | poke
  | settle
  | hold (outside : Bool)
  | mark (outside : Bool)
  /-- In `look`: the probe is to be drained. -/
  | drain
  | awake
  | asleep
  /-- In `drop`: the clock is let go, the entry is to be cleared. -/
  | ending
  deriving DecidableEq

structure Wait where
  watch : Nat
  /-- Its thread runs in a deterministic schedule. -/
  det : Bool
  outside : Bool := false
  stage : Stage := .arm
  /-- It has looked since it listens on the watch's key. -/
  checked : Bool := false
  /-- The key was bumped since its last check began. -/
  bumped : Bool := false
  /-- Not in the source: the clock counts it as waiting on the outside. -/
  holds : Bool := false
  deriving DecidableEq

inductive Round where
  | collect
  | poll (set : List Nat)
  /-- The pokes are to be read, then the probes that were readable disarmed. -/
  | read (hot : List Nat)
  | disarm (hot : List Nat)
  | wake (woken : List Nat)
  deriving DecidableEq

structure Wakes where
  keys : List Nat
  /-- Only the waits outside a deterministic schedule. -/
  unscheduled : Bool
  deriving DecidableEq

structure State where
  /-- The registry, and the number of identities given out. -/
  entries : Nat → Option Entry := fun _ => none
  made : Nat := 0
  domains : Nat → Nat := fun _ => 0
  /-- The probes that have seen a change not drained. -/
  readable : Nat → Bool := fun _ => false
  /-- The waits, numbered as they start. -/
  waits : Nat → Option Wait := fun _ => none
  started : Nat := 0
  /-- There is a byte in the watcher's pipe. -/
  poked : Bool := false
  round : Round := .collect
  bumps : List Wakes := []

inductive Act where
  | new (domain : Nat)
  | watchChild (domain : Nat)
  | dropWatch (w : Nat)
  /-- A descriptor of the probe changes, or the child process ends. -/
  | change (w : Nat)
  /-- A scan drains the probe. -/
  | scan (w : Nat)
  | wait (w : Nat) (det : Bool)
  | arm (t : Nat)
  | poke (t : Nat)
  /-- Whether one of the descriptors is a pipe that a child process may hold and that is not hung
  up. -/
  | settle (t : Nat) (outside : Bool)
  | hold (t : Nat)
  | mark (t : Nat)
  | look (t : Nat)
  | drain (t : Nat)
  | sleep (t : Nat)
  /-- The wait ends its sleep for another reason than the watch's key. -/
  | rouse (t : Nat)
  | letGo (t : Nat)
  | clear (t : Nat)
  | settling (domain : Nat)
  | recheck (domain : Nat)
  | realReady (domain : Nat)
  | bump (wakes : Wakes)
  /-- A poke for a new child process, or for a watch that was dropped. -/
  | pokeWatcher
  | collect
  /-- The poll returns, in the last case with nothing readable. -/
  | poll (interrupted : Bool)
  | read
  | disarm
  | wake

namespace State

variable (s : State)

def setWait (t : Nat) (x : Wait) : State := { s with waits := update s.waits t (some x) }

variable (w : Nat)

def withEntry (f : Entry → Entry) : State :=
  { s with entries := update s.entries w ((s.entries w).map f) }

variable (domain : Nat)

def push (entry : Entry) : State :=
  { s with
    entries := update s.entries s.made (some entry)
    domains := update s.domains s.made domain
    readable := update s.readable s.made false
    made := s.made + 1 }

def waitsOn : Bool :=
  (List.range s.started).any fun t => (s.waits t).any fun x => x.watch == w

/-- The watch is dropped with the last reference to it, and a wait has one. -/
def dropWatch : State :=
  match s.entries w with
  | some e =>
    if e.child || s.waitsOn w then s
    else { s with entries := update s.entries w none }
  | none => s

def wait (det : Bool) : State :=
  match s.entries w with
  | some e =>
    if e.child then s
    else
      { s.withEntry w fun entry => { entry with waiting := true } with
        waits := update s.waits s.started (some { watch := w, det })
        started := s.started + 1 }
  | none => s

def bumpKeys (keys : List Nat) (reached : Wait → Bool) : State :=
  { s with
    waits := fun t => (s.waits t).map fun x =>
      if x.watch ∈ keys && reached x then { x with bumped := true } else x }

/-- The watches of the domain for which `p` holds of the entry and the probe. -/
def select (p : Entry → Bool → Bool) : List Nat :=
  (List.range s.made).filter fun w =>
    s.domains w == domain && (s.entries w).any fun e => p e (s.readable w)

def settling : State :=
  { s with
    bumps := ⟨s.select domain fun e readable => e.waiting && readable, true⟩ :: s.bumps }

def recheck : State :=
  { s with bumps := ⟨s.select domain fun e _ => e.waiting, false⟩ :: s.bumps }

def realReady : State :=
  s.bumpKeys (s.select domain fun e readable => e.waiting && readable) fun x => x.det

/-- `outside`: whether a thread of the domain waits on a descriptor a child process may write. -/
def outside : Bool := !(s.select domain fun e _ => e.waiting && e.outside).isEmpty

def collect : List Nat :=
  (List.range s.made).filter fun w => (s.entries w).any fun e => e.child || e.armed && e.waiting

/-- The registry after the probes in `hot` were found readable: of a child the entry goes, and of a
watch it is disarmed. -/
def disarmed (hot : List Nat) (w : Nat) : Option Entry :=
  if w ∈ hot then
    match s.entries w with
    | some e => if e.child then none else some { e with armed := false }
    | none => none
  else s.entries w

def watcher : Act → State
  | .collect =>
    match s.round with
    | .collect => { s with round := .poll s.collect }
    | _ => s
  | .poll interrupted =>
    match s.round with
    | .poll set =>
      if s.poked || interrupted || set.any s.readable then
        { s with round := .read (set.filter fun w => s.readable w) }
      else s
    | _ => s
  | .read =>
    match s.round with
    | .read hot => { s with poked := false, round := .disarm hot }
    | _ => s
  | .disarm =>
    match s.round with
    | .disarm hot =>
      { s with
        entries := s.disarmed hot
        round := .wake (hot.filter fun w => (s.entries w).any fun e => !e.child) }
    | _ => s
  | .wake =>
    match s.round with
    | .wake (w :: woken) => { s.bumpKeys [w] fun x => !x.det with round := .wake woken }
    | .wake [] => { s with round := .collect }
    | _ => s
  | _ => s

def access (t : Nat) (x : Wait) : Act → State
  | .arm _ =>
    if x.stage = .arm then
      if x.det then s.setWait t { x with stage := .settle }
      else
        match s.entries x.watch with
        | some e =>
          (s.withEntry x.watch fun entry => { entry with armed := true }).setWait t
            { x with stage := if e.armed then .settle else .poke }
        | none => s.setWait t { x with stage := .settle }
    else s
  | .poke _ =>
    if x.stage = .poke then { s with poked := true }.setWait t { x with stage := .settle } else s
  | .settle _ outside =>
    if x.stage = .settle then
      s.setWait t { x with outside, stage := if x.outside = outside then .awake else .hold outside }
    else s
  | .hold _ =>
    match x.stage with
    | .hold outside => s.setWait t { x with holds := outside, stage := .mark outside }
    | _ => s
  | .mark _ =>
    match x.stage with
    | .mark outside =>
      (s.withEntry x.watch fun entry => { entry with outside }).setWait t { x with stage := .awake }
    | _ => s
  | .look _ =>
    if x.stage = .awake then
      s.setWait t { x with stage := .drain, checked := true, bumped := false }
    else s
  | .drain _ =>
    if x.stage = .drain then
      { s with readable := update s.readable x.watch false }.setWait t
        { x with stage := .arm }
    else s
  | .sleep _ =>
    if x.stage = .awake && x.checked && !x.bumped then
      s.setWait t { x with stage := .asleep }
    else s
  | .rouse _ => if x.stage = .asleep then s.setWait t { x with stage := .awake } else s
  | .letGo _ =>
    if x.stage = .awake then s.setWait t { x with holds := false, stage := .ending } else s
  | .clear _ =>
    if x.stage = .ending then
      { s.withEntry x.watch fun entry =>
          { entry with waiting := false, armed := false, outside := false } with
        waits := update s.waits t none }
    else s
  | _ => s

def other : Act → State
  | .new domain => s.push domain {}
  | .watchChild domain => s.push domain { child := true }
  | .dropWatch w => s.dropWatch w
  | .change w => { s with readable := update s.readable w true }
  | .scan w => { s with readable := update s.readable w false }
  | .wait w det => s.wait w det
  | .settling domain => s.settling domain
  | .recheck domain => s.recheck domain
  | .realReady domain => s.realReady domain
  | .bump wakes =>
    if wakes ∈ s.bumps then
      { s.bumpKeys wakes.keys fun x => !(wakes.unscheduled && x.det) with
        bumps := s.bumps.erase wakes }
    else s
  | .pokeWatcher => { s with poked := true }
  | _ => s

end State

def Act.waiter : Act → Option Nat
  | .arm t | .poke t | .settle t _ | .hold t | .mark t | .look t | .drain t | .sleep t | .rouse t
  | .letGo t | .clear t => some t
  | _ => none

def Act.ofWatcher : Act → Bool
  | .collect | .poll _ | .read | .disarm | .wake => true
  | _ => false

def State.step (s : State) (a : Act) : State :=
  match a.waiter with
  | some t =>
    match s.waits t with
    | some x => s.access t x a
    | none => s
  | none => if a.ofWatcher then s.watcher a else s.other a

end Snare.RealFd
