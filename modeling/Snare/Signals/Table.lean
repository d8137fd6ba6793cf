import Mathlib

/-!
# A domain's signal table

The signals sent to the process wait on the process's list or on one thread's own, until a thread
takes them: the delivery of the signals its mask lets through, or a `sigwait`. `deliver_to_process`
picks a thread in one section under the table's lock and posts the signal in another.

* **`target`**: the thread a signal goes to;
* **`push`**, **`take`**: the lists;
* **`Act`**, **`step`**: the sections of every call, in any order; one that is not a thread's next
  does nothing.

Sets of signals are finite sets; the order of the threads' map shows nowhere, because the source
picks by rank.
-/

namespace Snare.Signals

open Function

/-! ## The table -/

structure Posted where
  sig : Nat
  /-- Not in the source: which of the signals sent it is. -/
  id : Nat
  deriving DecidableEq

structure Thread where
  order : Nat
  root : Bool
  injected : Bool := false
  mask : Finset Nat
  pending : List Posted := []
  blocked : Nat := 0
  waits : Finset Nat := ∅

inductive Disposition where
  | default
  | ignore
  | handler
  deriving DecidableEq

inductive Target where
  | waiter (l : Nat)
  | thread (l : Nat)
  | here
  | pending
  | record

/-- Where a thread's call stands between two sections. -/
inductive Place where
  | free
  /-- `deliver_to_process` has a target: a thread, or the process. -/
  | posting (dst : Option Nat) (posted : Posted)
  /-- The target is the calling thread. -/
  | here (posted : Posted)
  /-- `sigwait` found nothing, and is to wait. -/
  | joining (wanted : Finset Nat)
  deriving DecidableEq

inductive Loc where
  | flight (t : Nat)
  /-- An equal signal was pending on the list it was put on. -/
  | merged (into : Nat)
  | process
  | own (l : Nat)
  | taken
  /-- It was on the list of a thread that left. -/
  | dropped
  deriving DecidableEq

structure State where
  threads : Nat → Option Thread := fun _ => none
  process : List Posted := []
  next : Nat := 0
  /-- How many threads have started; they are numbered so. -/
  lineages : Nat := 0
  exited : Nat → Bool := fun _ => false
  calls : Nat → Place := fun _ => .free
  /-- The `sigwait` calls a thread is in, innermost first, and whether each has its signal. -/
  sigwaits : Nat → List (Finset Nat × Bool) := fun _ => []
  /-- Not in the source: how many signals were sent, and where each is. -/
  sent : Nat := 0
  loc : Nat → Loc := fun _ => .dropped
  taken : List Nat := []

/-- One section of a call of thread `t`. -/
inductive Act where
  | start (root : Bool) (mask : Finset Nat)
  | inject (t : Nat)
  | exit (t : Nat)
  | send (t sig : Nat) (disposition : Disposition)
  | post (t : Nat)
  /-- `deliver_ready` takes a signal, with the mask and what the handlers taken before it block. -/
  | deliver (t : Nat) (blocks : Finset Nat)
  | setMask (t : Nat) (mask : Finset Nat)
  /-- `sigwait` looks; `poll` is a timeout of zero. -/
  | sigwait (t : Nat) (wanted : Finset Nat) (poll : Bool)
  | beginWait (t : Nat)
  | retry (t : Nat)
  | endWait (t : Nat)
  /-- An interruptible call begins and ends. -/
  | enter (t : Nat)
  | leaveCall (t : Nat)

namespace Thread

def accepts (th : Thread) (sig : Nat) : Bool := !th.injected && decide (sig ∉ th.mask)

def before (a b : Thread) : Bool :=
  if a.root = b.root then decide (a.order < b.order) else a.root

end Thread

namespace State

variable (s : State) (t : Nat)

def goto (p : Place) : State := { s with calls := update s.calls t p }

variable (l : Nat)

def setThread (th : Thread) : State :=
  { s with threads := update s.threads l (some th) }

/-- `Table::thread`: the row of `l`, made if there is none, changed by `f`. -/
def onThread (f : Thread → Thread) : State :=
  match s.threads l with
  | some th => s.setThread l (f th)
  | none =>
    { s with next := s.next + 1 }.setThread l (f { order := s.next + 1, root := false, mask := ∅ })

def first (filter : Nat → Thread → Bool) : Option Nat :=
  let rows := (List.range s.lineages).filterMap fun l => (s.threads l).map fun th => (l, th)
  ((rows.filter fun r => filter r.1 r.2).foldl (fun best r =>
    match best with
    | none => some r
    | some b => if r.2.before b.2 then some r else some b) none).map Prod.fst

def target (me : Nat) (th : Thread) (sig : Nat) (disposition : Disposition) : Target :=
  match s.first fun _ th => decide (sig ∈ th.waits) && !th.injected with
  | some waiter => .waiter waiter
  | none =>
    let iAccept := th.accepts sig
    let others := fun l (th : Thread) => l != me && th.accepts sig
    let idle := (s.first fun _ th => !th.injected).isNone
    if !iAccept && !idle && (s.first others).isNone then .pending
    else if disposition ≠ .handler then .record
    else
      let aRoot := (iAccept && th.root) || (s.first fun l th => th.root && others l th).isSome
      match s.first fun l th => decide (0 < th.blocked) && (th.root || !aRoot) && others l th with
      | some l => .thread l
      | none =>
        if iAccept || th.injected then .here
        else
          match s.first fun l th => (th.root || !aRoot) && others l th with
          | some l => .thread l
          | none => .pending

/-! ## The lists -/

def equalOn (list : List Posted) (posted : Posted) : Option Posted :=
  list.find? fun p => p.sig == posted.sig

def move (id : Nat) (loc : Loc) : State := { s with loc := update s.loc id loc }

def push (dst : Option Nat) (posted : Posted) : State :=
  match dst with
  | none =>
    match equalOn s.process posted with
    | some p => s.move posted.id (.merged p.id)
    | none => { s with process := s.process ++ [posted] }.move posted.id .process
  | some l =>
    -- the row is made if there is none
    let s := s.onThread l fun th => th
    match s.threads l with
    | none => s
    | some th =>
      match equalOn th.pending posted with
      | some p => s.move posted.id (.merged p.id)
      | none =>
        (s.setThread l { th with pending := th.pending ++ [posted] }).move posted.id (.own l)

/-- `take_lowest`: the lowest wanted signal of a list, and the rest. -/
def takeLowest (list : List Posted) (wanted : Nat → Bool) : Option (Posted × List Posted) :=
  match ((list.map Posted.sig).filter wanted).min? with
  | none => none
  | some sig =>
    (list.find? fun p => p.sig == sig).map fun p => (p, list.eraseP fun p => p.sig == sig)

def took (id : Nat) : State := { s.move id .taken with taken := s.taken ++ [id] }

def takeProcess (wanted : Nat → Bool) (process : Bool) : Option State :=
  if process then
    match takeLowest s.process wanted with
    | some (p, process) => some ({ s with process }.took p.id)
    | none => none
  else none

/-- `take`: of the thread's own signals first, then of the process's if `process`. -/
def take (wanted : Nat → Bool) (process : Bool) : Option State :=
  match s.threads l with
  | none => s.takeProcess wanted process
  | some th =>
    match takeLowest th.pending wanted with
    | some (p, pending) => some ((s.setThread l { th with pending }).took p.id)
    | none => s.takeProcess wanted process

/-! ## The sections -/

def start (root : Bool) (mask : Finset Nat) : State :=
  { s with next := s.next + 1, lineages := s.lineages + 1 }.setThread s.lineages
    { order := s.next + 1, root, mask }

/-- `leave`: the signals pending for the thread alone go with it. -/
def leave (th : Thread) : State :=
  { s with
    threads := update s.threads t none
    exited := update s.exited t true
    loc := fun id => if id ∈ th.pending.map Posted.id then .dropped else s.loc id }

def send (th : Thread) (sig : Nat) (disposition : Disposition) : State :=
  let posted : Posted := ⟨sig, s.sent⟩
  let s' := { s with sent := s.sent + 1 }.move s.sent (.flight t)
  match s.target t th sig disposition with
  | .waiter l | .thread l => s'.goto t (.posting (some l) posted)
  | .here => s'.goto t (.here posted)
  | .pending => s'.goto t (.posting none posted)
  | .record => s

def sigwait (wanted : Finset Nat) (poll : Bool) : State :=
  match s.take t (fun sig => decide (sig ∈ wanted)) true with
  | some s => s
  | none => if poll then s else s.goto t (.joining wanted)

def retry : State :=
  match s.sigwaits t with
  | (wanted, false) :: rest =>
    match s.take t (fun sig => decide (sig ∈ wanted)) true with
    | some s => { s with sigwaits := update s.sigwaits t ((wanted, true) :: rest) }
    | none => s
  | _ => s

def endWait : State :=
  match s.sigwaits t with
  | (wanted, _) :: rest =>
    { s.onThread t fun th => { th with waits := th.waits \ wanted } with
      sigwaits := update s.sigwaits t rest }
  | [] => s

def access (th : Thread) (p : Place) : Act → State
  | .start root mask => s.start root mask
  | .inject _ => if p = .free then s.onThread t fun th => { th with injected := true } else s
  | .exit _ => if p = .free ∧ s.sigwaits t = [] then s.leave t th else s
  | .send _ sig disposition => if p = .free then s.send t th sig disposition else s
  | .post _ =>
    match p with
    | .posting dst posted => (s.push dst posted).goto t .free
    | .here posted => (s.push (some t) posted).goto t .free
    | _ => s
  | .deliver _ blocks =>
    if p = .free then
      (s.take t (fun sig => decide (sig ∉ th.mask ∪ blocks)) !th.injected).getD s
    else s
  | .setMask _ mask => if p = .free then s.onThread t fun th => { th with mask } else s
  | .sigwait _ wanted poll => if p = .free then s.sigwait t wanted poll else s
  | .beginWait _ =>
    match p with
    | .joining wanted =>
      { s.onThread t fun th => { th with waits := th.waits ∪ wanted } with
        sigwaits := update s.sigwaits t ((wanted, false) :: s.sigwaits t) }.goto t .free
    | _ => s
  | .retry _ => if p = .free then s.retry t else s
  | .endWait _ => if p = .free then s.endWait t else s
  | .enter _ =>
    if p = .free then s.onThread t fun th => { th with blocked := th.blocked + 1 } else s
  | .leaveCall _ =>
    if p = .free then s.onThread t fun th => { th with blocked := th.blocked - 1 } else s

end State

def Act.thread : Act → Option Nat
  | .start _ _ => none
  | .inject t | .exit t | .send t _ _ | .post t | .deliver t _ | .setMask t _ | .sigwait t _ _
  | .beginWait t | .retry t | .endWait t | .enter t | .leaveCall t => some t

/-- A step of the domain; only a thread that runs makes a call. -/
def State.step (s : State) (a : Act) : State :=
  match a.thread with
  | none => s.access 0 { order := 0, root := false, mask := ∅ } .free a
  | some t =>
    match s.exited t, s.threads t with
    | false, some th => s.access t th (s.calls t) a
    | _, _ => s

end Snare.Signals
