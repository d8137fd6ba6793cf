import Mathlib

/-!
# The queue of pending changes

`Pending` is a bounded ring between any number of pushing threads and one draining one, with a
sequence number in each slot. Every atomic access is a step of its own, and so is the copy of a
value into or out of a slot; positions are machine words and wrap.

What the source does not have is marked as such: `log`, `freed`, `out`, `returned`, `refusals` and
`due` record what happened, and a position that was read carries the number of tickets claimed by
then, which does not wrap.
-/

namespace Snare.Wake

def capacity : Nat := 1024

/-- One past `usize::MAX`. -/
def word : Nat := 2 ^ 64

def wrappingAdd (a b : Nat) : Nat := (a + b) % word

/-- The sign of `a.wrapping_sub(b) as isize`. -/
def wrappingSign (a b : Nat) : Ordering :=
  let d := (a + (word - b)) % word
  if d = 0 then .eq else if d < word / 2 then .gt else .lt

structure Slot (T : Type) where
  seq : Nat
  value : Option T

/-- Where a thread's `push` is. The last argument is the count of claimed tickets when `pos` was
read, or the ticket the push claimed. -/
inductive Push (T : Type) where
  | idle
  /-- About to read `tail` again. -/
  | reload (value : T)
  /-- About to read the slot's sequence number. -/
  | loaded (pos : Nat) (value : T) (seen : Nat)
  /-- About to claim the ticket. -/
  | checked (pos : Nat) (value : T) (seen : Nat)
  /-- About to write the value. -/
  | claimed (pos : Nat) (value : T) (ticket : Nat)
  /-- About to publish the slot. -/
  | written (pos : Nat) (value : T) (ticket : Nat)

/-- Where the `drain` is. `goal` is the count of claimed tickets when `stop` was read. -/
inductive Drain (T : Type) where
  | idle
  /-- About to read `head`. -/
  | ended (stop goal : Nat)
  /-- About to compare positions and read the slot's sequence number. -/
  | looking (pos stop goal : Nat)
  /-- About to read the value. -/
  | filled (pos stop goal : Nat)
  /-- About to give the slot back. -/
  | read (pos stop goal : Nat) (value : Option T)
  /-- About to store `head` and apply the value. -/
  | stored (pos stop goal : Nat) (value : Option T)

structure Pending (T : Type) where
  slots : Nat → Slot T
  tail : Nat
  head : Nat
  pushes : Nat → Push T
  drain : Drain T
  /-- The thread and value of each claimed ticket, in ticket order. -/
  log : List (Nat × T)
  /-- How many tickets' slots were given back. -/
  freed : Nat
  /-- What was handed out. -/
  out : List (Option T)
  /-- The thread, ticket and value of each push that returned `true`, in that order. -/
  returned : List (Nat × Nat × T)
  /-- For each push that returned `false`, how many tickets were outstanding. -/
  refusals : List Nat
  /-- The tickets whose push had returned when the latest drain began. -/
  due : List Nat

namespace Pending

variable {T : Type}

def new : Pending T where
  slots i := ⟨i, none⟩
  tail := 0
  head := 0
  pushes _ := .idle
  drain := .idle
  log := []
  freed := 0
  out := []
  returned := []
  refusals := []
  due := []

variable (p : Pending T)

def claimed : Nat := p.log.length

def outstanding : Nat := p.claimed - p.freed

def slot (pos : Nat) : Slot T := p.slots (pos % capacity)

def setSlot (pos : Nat) (s : Slot T) : Pending T :=
  { p with slots := Function.update p.slots (pos % capacity) s }

def setPush (t : Nat) (push : Push T) : Pending T :=
  { p with pushes := Function.update p.pushes t push }

def loadTail (t : Nat) (value : T) : Pending T :=
  p.setPush t (.loaded p.tail value p.claimed)

/-- The next access of thread `t`'s push; `spurious` makes a weak compare-exchange fail. -/
def stepPush (t : Nat) (spurious : Bool) : Pending T :=
  match p.pushes t with
  | .idle => p
  | .reload value => p.loadTail t value
  | .loaded pos value seen =>
    match wrappingSign (p.slot pos).seq pos with
    | .eq => p.setPush t (.checked pos value seen)
    | .lt => { p.setPush t .idle with refusals := p.refusals ++ [p.outstanding] }
    | .gt => p.setPush t (.reload value)
  | .checked pos value _ =>
    if p.tail = pos ∧ spurious = false then
      { p.setPush t (.claimed pos value p.claimed) with
        tail := wrappingAdd pos 1
        log := p.log ++ [(t, value)] }
    else p.loadTail t value
  | .claimed pos value ticket =>
    (p.setSlot pos ⟨(p.slot pos).seq, some value⟩).setPush t (.written pos value ticket)
  | .written pos value ticket =>
    { (p.setSlot pos ⟨wrappingAdd pos 1, (p.slot pos).value⟩).setPush t .idle with
      returned := p.returned ++ [(t, ticket, value)] }

/-- The next access of the drain; an idle one begins by reading `tail`. -/
def stepDrain : Pending T :=
  match p.drain with
  | .idle => { p with drain := .ended p.tail p.claimed, due := p.returned.map (·.2.1) }
  | .ended stop goal => { p with drain := .looking p.head stop goal }
  | .looking pos stop goal =>
    if pos = stop then { p with drain := .idle }
    else if (p.slot pos).seq = wrappingAdd pos 1 then { p with drain := .filled pos stop goal }
    else p
  | .filled pos stop goal => { p with drain := .read pos stop goal (p.slot pos).value }
  | .read pos stop goal value =>
    { p.setSlot pos ⟨wrappingAdd pos capacity, (p.slot pos).value⟩ with
      freed := p.freed + 1
      drain := .stored pos stop goal value }
  | .stored pos stop goal value =>
    { p with
      head := wrappingAdd pos 1
      out := p.out ++ [value]
      drain := .looking (wrappingAdd pos 1) stop goal }

inductive Act (T : Type) where
  /-- Thread `t` calls `push`, which begins by reading `tail`. -/
  | push (t : Nat) (value : T)
  /-- The next access of thread `t`'s push. -/
  | access (t : Nat) (spurious : Bool)
  /-- The next access of the drain. -/
  | drain

def step : Act T → Pending T
  | .push t value =>
    match p.pushes t with
    | .idle => p.loadTail t value
    | _ => p
  | .access t spurious => p.stepPush t spurious
  | .drain => p.stepDrain

end Pending

end Snare.Wake
