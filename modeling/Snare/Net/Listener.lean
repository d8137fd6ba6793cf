import Mathlib

/-!
# A listener and the calls on it

Connections to a listening address wait in the listener's queue to be accepted. A connect reserves
an entry first, by an exchange on the count of occupied entries, then establishes the connection and
queues it; an accept takes the oldest connection and, if no descriptor can be had for it, puts it
back at the head; the close of the descriptor withdraws the address and resets what is queued.

A call stands at a `Place` between two accesses to the listener, and a step is one access:

* **`Place`**: where a call stands, with what it holds;
* **`Act`**: the accesses, of any number of threads;
* **`step`**: what each does; one that is not a call's next does nothing.
-/

namespace Snare.Listener

/-- A connection, by the order in which connections are established. -/
abbrev Conn := Nat

inductive Place where
  | idle
  /-- `connect`: the listener is found, `occupied` not read yet. -/
  | found
  /-- `reserve`: `occupied` was `used`, the capacity is not read yet. -/
  | loaded (used : Nat)
  /-- `reserve`: `used` was below the capacity. -/
  | checked (used : Nat)
  /-- `connect` holds an admission. -/
  | admitted
  /-- The connection is established and in the socket table, not queued yet. -/
  | established (conn : Conn)
  /-- `accept` has the listener. -/
  | looking
  /-- `accept` popped a connection. -/
  | popped (conn : Conn)
  /-- It has a descriptor for it, or could not get one. -/
  | reserved (conn : Conn)
  | refused (conn : Conn)
  /-- It freed the entry, and is to put the socket into the table. -/
  | freed (conn : Conn)
  /-- `close`: the descriptor is gone; the listener is to be withdrawn, drained, and what was
  drained reset. -/
  | closing
  | withdrawn
  | resetting (orphans : List Conn)
  deriving DecidableEq

def Place.reserves : Place → Bool
  | .admitted | .established _ => true
  | _ => false

def Place.pops : Place → Bool
  | .popped _ | .reserved _ | .refused _ => true
  | _ => false

structure State where
  /-- The calls, of the threads below `threads`. -/
  threads : Nat := 0
  calls : Nat → Place := fun _ => .idle
  /-- The descriptor is open, and the listener registered at its address. -/
  isOpen : Bool := true
  registered : Bool := true
  pending : List Conn := []
  capacity : Nat := 0
  occupied : Nat := 0
  /-- Connections established so far. -/
  conns : Nat := 0
  /-- Not in the source: the connections queued so far, those an accept took, those the close
  drained, and those accepted and reset; and whether the close has drained the queue. -/
  queued : List Conn := []
  taken : List Conn := []
  orphaned : List Conn := []
  accepted : List Conn := []
  reset : List Conn := []
  drained : Bool := false

inductive Act where
  /-- `connect` looks the listener up, reads the count, reads the capacity. -/
  | find (t : Nat)
  | load (t : Nat)
  | check (t : Nat)
  /-- The exchange of `reserve`, which may fail for no reason. -/
  | exchange (t : Nat) (spurious : Bool)
  | establish (t : Nat)
  /-- The admission is dropped. -/
  | abandon (t : Nat)
  | queue (t : Nat)
  | accept (t : Nat)
  | pop (t : Nat)
  /-- `accept` gives up on an empty queue. -/
  | leave (t : Nat)
  /-- Whether a descriptor was to be had. -/
  | reserveFd (t : Nat) (ok : Bool)
  | pushFront (t : Nat)
  | free (t : Nat)
  | deliver (t : Nat)
  /-- `listen` again. -/
  | listen (capacity : Nat)
  | close (t : Nat)
  | unlisten (t : Nat)
  | drain (t : Nat)
  | resetNext (t : Nat)

namespace State

variable (s : State)

/-- The entries reserved and not queued, and the connections popped and not settled. -/
def reservations : Nat := s.threads.count fun t => (s.calls t).reserves = true

def popped : Nat := s.threads.count fun t => (s.calls t).pops = true

def goto (t : Nat) (p : Place) : State :=
  { s with calls := Function.update s.calls t p }

def fetchSub : State :=
  { s with occupied := if s.occupied = 0 then 2 ^ 64 - 1 else s.occupied - 1 }

def access (t : Nat) (p : Place) : Act → State
  | .find _ =>
    match p with
    | .idle => if s.registered then s.goto t .found else s
    | _ => s
  | .load _ =>
    match p with
    | .found => s.goto t (.loaded s.occupied)
    | _ => s
  | .check _ =>
    match p with
    | .loaded used => if used ≥ s.capacity then s.goto t .idle else s.goto t (.checked used)
    | _ => s
  | .exchange _ spurious =>
    match p with
    | .checked used =>
      if s.occupied = used ∧ spurious = false then { s with occupied := used + 1 }.goto t .admitted
      else s.goto t (.loaded s.occupied)
    | _ => s
  | .establish _ =>
    match p with
    | .admitted => { s with conns := s.conns + 1 }.goto t (.established s.conns)
    | _ => s
  | .abandon _ =>
    match p with
    | .admitted => s.fetchSub.goto t .idle
    | _ => s
  | .queue _ =>
    match p with
    | .established conn =>
      { s with pending := s.pending ++ [conn], queued := s.queued ++ [conn] }.goto t .idle
    | _ => s
  | .accept _ =>
    match p with
    | .idle => if s.isOpen then s.goto t .looking else s
    | _ => s
  | .pop _ =>
    match p, s.pending with
    | .looking, conn :: pending =>
      { s with pending, taken := s.taken ++ [conn] }.goto t (.popped conn)
    | _, _ => s
  | .leave _ =>
    match p with
    | .looking => s.goto t .idle
    | _ => s
  | .reserveFd _ ok =>
    match p with
    | .popped conn => s.goto t (if ok then .reserved conn else .refused conn)
    | _ => s
  | .pushFront _ =>
    match p with
    | .refused conn =>
      { s with pending := conn :: s.pending, taken := s.taken.erase conn }.goto t .idle
    | _ => s
  | .free _ =>
    match p with
    | .reserved conn => s.fetchSub.goto t (.freed conn)
    | _ => s
  | .deliver _ =>
    match p with
    | .freed conn => { s with accepted := s.accepted ++ [conn] }.goto t .idle
    | _ => s
  | .listen capacity => if s.isOpen then { s with capacity } else s
  | .close _ =>
    match p with
    | .idle => if s.isOpen then { s with isOpen := false }.goto t .closing else s
    | _ => s
  | .unlisten _ =>
    match p with
    | .closing => { s with registered := false }.goto t .withdrawn
    | _ => s
  | .drain _ =>
    match p with
    | .withdrawn =>
      { s with pending := [], orphaned := s.orphaned ++ s.pending, drained := true }.goto t
        (.resetting s.pending)
    | _ => s
  | .resetNext _ =>
    match p with
    | .resetting (conn :: orphans) =>
      { s with reset := s.reset ++ [conn] }.goto t (.resetting orphans)
    | .resetting [] => s.goto t .idle
    | _ => s

end State

def Act.thread : Act → Nat
  | .find t | .load t | .check t | .exchange t _ | .establish t | .abandon t | .queue t
  | .accept t | .pop t | .leave t | .reserveFd t _ | .pushFront t | .free t | .deliver t
  | .close t | .unlisten t | .drain t | .resetNext t => t
  | .listen _ => 0

def State.step (s : State) (a : Act) : State :=
  if a.thread < s.threads then s.access a.thread (s.calls a.thread) a else s

end Snare.Listener
