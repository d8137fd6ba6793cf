import Snare.Host

/-!
# Advisory locks of one inode

The lock table of `fs_locks.rs`: `fcntl(2)` record locks, owned by the process or by an open file
description, and `flock(2)` locks, which Linux keeps apart (`Table.flocks`) and macOS keeps among
the record locks under an owner of their own.

A call is a sequence of sections under the inode's mutex. Every definition below is one section: it
takes the table the lock protects and returns the table it leaves. A blocking request that finds a
conflict leaves the table as it is and `waits`; each later attempt of its wait is a section of its
own, with the same arguments.
-/

namespace Snare.Locks

/-- The end of a range that runs to the end of the file, however far it grows (`l_len` 0). -/
def toEnd : Nat := 2 ^ 64 - 1

inductive Owner where
  | process
  | description (d : Nat)
  /-- A description's `flock` lock, where `flock` locks live among the record locks. -/
  | flock (d : Nat)
  deriving DecidableEq

structure Range where
  start : Nat
  /-- Exclusive; `toEnd` for a lock that covers any later growth. -/
  stop : Nat
  write : Bool
  owner : Owner

variable (r : Range)

def Range.overlaps (start stop : Nat) : Bool :=
  r.start < stop && start < r.stop

structure Table where
  records : List Range
  /-- `flock` holders: the description and whether its lock is exclusive. -/
  flocks : List (Nat × Bool)

def Table.empty : Table := ⟨[], []⟩

variable (t : Table) (owner : Owner)

/-- The first range of another owner that excludes a lock of type `write` over `[start, stop)`. -/
def Table.conflict (start stop : Nat) (write : Bool) : Option Range :=
  t.records.find? fun r => r.owner != owner && (write || r.write) && r.overlaps start stop

/-! ## Setting a range -/

/-- What stays of one of the owner's ranges when `[start, stop)` is cut out of it. -/
def Range.trim (start stop : Nat) : List Range :=
  if r.overlaps start stop then
    (if r.start < start then [{ r with stop := start }] else []) ++
      (if r.stop > stop then [{ r with start := stop }] else [])
  else [r]

/-- Whether a kept range of the owner merges with a new one of type `write` over `[start, stop)`. -/
def Range.joins (start stop : Nat) (write : Bool) : Bool :=
  r.write == write && r.start ≤ stop && start ≤ r.stop

/-- The new range of type `write` over `[start, stop)`, grown over the kept ranges it merges with.
-/
def merged (kept : List Range) (owner : Owner) (start stop : Nat) (write : Bool) : Range :=
  let joined := kept.filter (·.joins start stop write)
  { start := joined.foldl (fun low r => min low r.start) start
    stop := joined.foldl (fun high r => max high r.stop) stop
    write, owner }

/-- The owner's ranges once `[start, stop)` has type `write`, or none: the kept pieces and the new
range in place of those it merges with, in order. -/
def replacement (mine : List Range) (owner : Owner) (start stop : Nat) (write : Option Bool) :
    List Range :=
  let kept := mine.flatMap (·.trim start stop)
  let placed : List Range := match write with
    | none => kept
    | some write =>
      kept.filter (fun r => !r.joins start stop write) ++ [merged kept owner start stop write]
  placed.insertionSort (fun a b => a.start ≤ b.start)

/-- Replaces `owner`'s locks over `[start, stop)` with one of type `write`, or with none, in the
place the owner's ranges had, or at the end. The flag is whether a lock was released. -/
def Table.set (start stop : Nat) (write : Option Bool) : Table × Bool :=
  let mine := t.records.filter (·.owner == owner)
  let rest := t.records.filter (·.owner != owner)
  let released := mine.any fun r => r.overlaps start stop && (write != some true || r.write)
  let place := (t.records.findIdx? (·.owner == owner)).getD rest.length
  let kept := replacement mine owner start stop write
  ({ t with records := rest.take place ++ kept ++ rest.drop place }, released)

/-! ## `fcntl` -/

inductive LockType where
  | read
  | write
  | unlock
  | other

inductive Whence where
  | set
  | cur
  | «end»
  | other

structure Flock where
  type : LockType
  whence : Whence
  start : Int
  len : Int
  pid : Int

structure Target where
  readable : Bool
  writable : Bool
  cursor : Nat
  len : Nat
  description : Nat

inductive Cmd where
  | getlk
  | setlk
  | setlkw
  | ofdGetlk
  | ofdSetlk
  | ofdSetlkw
  | setlkwTimeout
  | ofdSetlkwTimeout
  | other

inductive Request where
  | get
  | set
  /-- A blocking set; `timed` when the argument is a `struct flocktimeout`. -/
  | wait (timed : Bool)

variable (host : Host)

/-- The request a command makes and whether the open file description owns its locks. -/
def classify : Cmd → Option (Request × Bool)
  | .getlk => some (.get, false)
  | .setlk => some (.set, false)
  | .setlkw => some (.wait false, false)
  | .ofdGetlk => some (.get, true)
  | .ofdSetlk => some (.set, true)
  | .ofdSetlkw => some (.wait false, true)
  | .setlkwTimeout => if host = .macos then some (.wait true, false) else none
  | .ofdSetlkwTimeout => if host = .macos then some (.wait true, true) else none
  | .other => none

def asI64 (n : Nat) : Int := if n < 2 ^ 63 then n else n - 2 ^ 64

def checkedAdd (a b : Int) : Option Int :=
  if -2 ^ 63 ≤ a + b ∧ a + b < 2 ^ 63 then some (a + b) else none

def base (lock : Flock) (target : Target) : Except Errno Int :=
  match lock.whence with
  | .set => .ok 0
  | .cur => .ok (asI64 target.cursor)
  | .end => .ok (asI64 target.len)
  | .other => .error .EINVAL

/-- The ends of the range from `start`, extending `len` bytes forward, `-len` bytes back when
negative, or without an end when 0. -/
def extent (start len : Int) : Except Errno (Int × Option Int) :=
  if len = 0 then .ok (start, none)
  else if len > 0 then
    match checkedAdd start len with
    | some stop => .ok (start, some stop)
    | none => .error .EOVERFLOW
  else
    match checkedAdd start len with
    | some first => .ok (first, some start)
    | none => .error .EINVAL

/-- The byte range `[start, stop)` a `struct flock` names. -/
def span (lock : Flock) (target : Target) : Except Errno (Nat × Nat) := do
  let base ← base lock target
  match checkedAdd base lock.start with
  | none => .error .EOVERFLOW
  | some start =>
    let (start, stop) ← extent start lock.len
    if start < 0 then .error .EINVAL
    else .ok (start.toNat, stop.elim toEnd Int.toNat)

inductive Outcome where
  | failed (errno : Errno)
  /-- `F_GETLK`: the structure written back. -/
  | reported (fl : Flock)
  /-- Granted; `released` when waiters are to be woken. -/
  | granted (released : Bool)
  /-- A blocking request found a conflict and sleeps. -/
  | waits

/-- The `struct flock` that `F_GETLK` writes back for the lock found, or for none. -/
def Flock.report (fl : Flock) (pid : Int) : Option Range → Flock
  | some held =>
    { type := if held.write then .write else .read
      whence := .set
      start := held.start
      len := if held.stop = toEnd then 0 else (held.stop - held.start : Nat)
      pid := match held.owner with
        | .process => pid
        | .description _ | .flock _ => -1 }
  | none => { fl with type := .unlock }

/-- One attempt at a record lock: `none` when another owner's lock conflicts. -/
def Table.attempt (start stop : Nat) (kind : Option Bool) :
    Option (Table × Bool) :=
  match kind with
  | some write =>
    if (t.conflict owner start stop write).isSome then none else some (t.set owner start stop kind)
  | none => some (t.set owner start stop kind)

/-- The lock type a request asks for: shared, exclusive or none; `none` for a value that is no type.
-/
def LockType.kind : LockType → Option (Option Bool)
  | .read => some (some false)
  | .write => some (some true)
  | .unlock => some none
  | .other => none

/-- `F_GETLK`: what stands in the way of a lock of the given type. An unlock is asked about as an
exclusive lock on macOS and refused on Linux. -/
def Table.getlk (pid : Int) (t : Table) (fl : Flock) (owner : Owner) (start stop : Nat)
    (kind : Option Bool) : Outcome :=
  match kind.or (if host = .macos then some true else none) with
  | none => .failed .EINVAL
  | some write => .reported (fl.report pid (t.conflict owner start stop write))

/-- `F_SETLK`, and `F_SETLKW` up to its wait. -/
def Table.setlk (target : Target) (blocking : Bool) (owner : Owner) (start stop : Nat)
    (kind : Option Bool) : Table × Outcome :=
  if (kind = some false ∧ ¬ target.readable) ∨ (kind = some true ∧ ¬ target.writable) then
    (t, .failed .EBADF)
  else match t.attempt owner start stop kind with
    | some (t', released) => (t', .granted released)
    | none => (t, if blocking then .waits else .failed .EAGAIN)

/-- Serves a record-lock `fcntl`, `arg` the caller's `struct flock` or null; `none` for a command
that is no record lock. -/
def Table.fcntl (pid : Int) (t : Table) (cmd : Cmd) (arg : Option Flock)
    (target : Target) : Option (Table × Outcome) :=
  (classify host cmd).map fun (request, ofd) =>
    match arg with
    | none => (t, .failed .EFAULT)
    | some fl =>
      if host = .linux ∧ ofd ∧ fl.pid ≠ 0 then (t, .failed .EINVAL) else
      match span fl target with
      | .error errno => (t, .failed errno)
      | .ok (start, stop) =>
        let owner := if ofd then Owner.description target.description else .process
        match fl.type.kind, request with
        | none, _ => (t, .failed .EINVAL)
        | some kind, .get => (t, t.getlk host pid fl owner start stop kind)
        | some kind, .set => t.setlk target false owner start stop kind
        | some kind, .wait _ => t.setlk target true owner start stop kind

/-! ## `flock` -/

def lockSh : BitVec 32 := 1
def lockEx : BitVec 32 := 2
def lockNb : BitVec 32 := 4
def lockUn : BitVec 32 := 8

/-- A `flock` operation: `none` to unlock, else whether it locks exclusively, or the errno of an
operation that names no lock. -/
def operationKind (operation : BitVec 32) : Option (Except Errno Bool) :=
  match host with
  | .macos =>
    if operation &&& lockUn ≠ 0 then none
    else if operation &&& lockEx ≠ 0 then some (.ok true)
    else if operation &&& lockSh ≠ 0 then some (.ok false)
    else some (.error .EBADF)
  | .linux =>
    let kind := operation &&& ~~~lockNb
    if kind = lockSh then some (.ok false)
    else if kind = lockEx then some (.ok true)
    else if kind = lockUn then none
    else some (.error .EINVAL)

variable (description : Nat)

def Table.flockConflict (exclusive : Bool) : Bool :=
  t.flocks.any fun (holder, held) => holder != description && (exclusive || held)

/-- The first section of a Linux `flock`: `none` when the description holds a lock of that type,
else whether a lock of the other type had to go first. -/
def Table.flockConvert (exclusive : Bool) : Option (Table × Bool) :=
  match t.flocks.findIdx? (·.1 == description) with
  | some at_ =>
    if t.flocks[at_]?.map Prod.snd = some exclusive then none
    else some ({ t with flocks := t.flocks.eraseIdx at_ }, true)
  | none => some (t, false)

/-- One attempt of a Linux `flock`: `none` when another description's lock conflicts. -/
def Table.flockAttempt (exclusive : Bool) : Option Table :=
  if t.flockConflict description exclusive then none
  else some { t with flocks := t.flocks ++ [(description, exclusive)] }

def Table.dropFlock : Table :=
  { records := t.records.filter (·.owner != Owner.flock description)
    flocks := t.flocks.filter (·.1 != description) }

/-- One attempt of a macOS `flock`: a whole-file record lock of the description's `flock` owner. -/
def Table.flockRecordAttempt (exclusive : Bool) :
    Option (Table × Bool) :=
  t.attempt (.flock description) 0 toEnd (some exclusive)

/-- `flock` on macOS up to its wait: a conversion replaces the held lock in place, and only a
blocking upgrade drops it before it sleeps. -/
def Table.flockRecord (exclusive nonblocking : Bool) :
    Table × Outcome :=
  match t.flockRecordAttempt description exclusive with
  | some (t', released) => (t', .granted released)
  | none =>
    if nonblocking then (t, .failed .EWOULDBLOCK)
    else (if exclusive then t.dropFlock description else t, .waits)

/-! ## Releases -/

/-- Drops the process's record locks, as closing any descriptor of the inode does. -/
def Table.releaseProcess : Table :=
  { t with records := t.records.filter (·.owner != Owner.process) }

/-- Drops the OFD and `flock` locks of a description whose last descriptor has closed. -/
def Table.releaseDescription : Table :=
  let t := { t with records := t.records.filter (·.owner != Owner.description description) }
  t.dropFlock description

end Snare.Locks
