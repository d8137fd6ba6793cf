import Snare.Stream.Line

/-!
# A pipe on each host

A `HostPipe` is a pipe of one of the three builds. The Linux build is the one `Pipe` models, and
each function below falls back on its namesake there. The other two have no transport and no receive
memory, and differ from it and from each other in what a shut or reset stream reads:

* on macOS a reader that shut its side drops what arrives, a stall is part of when bytes arrive and
  not a hold on the pipe, and a send waits for the low-water mark;
* on Windows a reset discards what was sent, and a send is taken whole while anything is free.
-/

namespace Snare.Stream

/-- What the functions of a pipe read while one of them runs. -/
structure Moment where
  clocks : Clocks
  /-- `effective_shutdown_arrival`: when macOS takes bytes due at an instant to arrive, from the
  past holds of the link and the past stalls. -/
  effective : Deadline → Deadline := id

def SockBuf.recvSpaceOn (b : SockBuf) : Os → Nat
  | .windows => satMul b.tcpRecvSpace 2
  | _ => b.tcpRecvSpace

structure HostPipe extends Pipe where
  os : Os
  /-- The writing socket was aborted (macOS). -/
  writerAborted : Bool := false

namespace HostPipe

def new (os : Os) (via : Option LinkState) (ends : Option Ends) : HostPipe :=
  { toPipe := .new via ends, os }

variable (h : HostPipe) (p : Pipe)

def withPipe : HostPipe := { h with toPipe := p }

@[simp] theorem withPipe_toPipe : (h.withPipe p).toPipe = p := rfl

@[simp] theorem withPipe_os : (h.withPipe p).os = h.os := rfl

/-! ## Landing -/

variable (bytes : List UInt8)

/-- Makes `bytes` readable as one chunk, unless macOS drops them. -/
def arrive : HostPipe :=
  if bytes = [] ∨ (h.os = .macos ∧ h.readShut) then h
  else { h with buf := h.buf ++ bytes, chunks := h.chunks ++ [bytes.length] }

theorem arrive_inFlight : (h.arrive bytes).inFlight = h.inFlight := by
  unfold arrive
  split <;> rfl

/-- Lands flights from the front while `lands` holds of when they are due. -/
def landFlights (h : HostPipe) (lands : Deadline → Bool) : HostPipe :=
  match _hflights : h.inFlight with
  | [] => h
  | flight :: rest =>
    if lands flight.at_ then
      ({ h with inFlight := rest }.arrive flight.bytes).landFlights lands
    else h
termination_by h.inFlight.length
decreasing_by
  rw [arrive_inFlight, _hflights]
  exact Nat.lt_succ_self _

def land (h : HostPipe) (m : Moment) : HostPipe :=
  match h.os with
  | .linux => h.withPipe (h.toPipe.land m.clocks)
  | .macos =>
    if h.linkUp then h.landFlights fun at_ => (m.effective at_).passed m.clocks else h
  | .windows =>
    if !h.linkUp then h
    else if (h.held m.clocks).isSome then h
    else h.landFlights fun at_ => at_.passed m.clocks

/-! ## Writing -/

def sendingClosed : Bool := (h.os == .macos && h.writerAborted) || h.closed

def recvRoom : Option Nat := do
  let ends ← h.ends
  let room := (h.reader.map fun rec => rec.buf.recvSpaceOn h.os).or h.pendingRecvSpace
  match ends.recvWindow, room with
  | some w, some r => some (min w r)
  | w, r => w.or r

def capacity : Option Nat := do
  let window ← h.recvRoom
  return satAdd window (h.writer.elim 0 fun rec => rec.buf.tcpSendSpace)

def macSndlowat : Nat := 2048

/-- How much of a write of `len` bytes a pipe holding `used` of `cap` takes: what fits for a tester,
and for the code under test what its host decides. -/
def takes (os : Os) (cap used len : Nat) (own : Bool) : Nat :=
  let free := cap - used
  if free ≥ len then len
  else if !own then free
  else
    match os with
    | .windows => if free > 0 then len else 0
    | .macos => if free ≥ min macSndlowat cap then free else 0
    | .linux => free

def accepts : Nat :=
  h.capacity.elim bytes.length fun cap =>
    takes h.os cap h.used bytes.length h.writer.isSome

/-- When bytes sent now are due: on macOS a stall does not move that. -/
def arrival (h : HostPipe) (m : Moment) (delay : Nat) : Deadline :=
  match h.os with
  | .macos =>
    (h.inFlight.getLast?.map Flight.at_).toList.foldl
      (fun at_ later => if later.instant > at_.instant then later else at_) (.after m.clocks delay)
  | _ => h.toPipe.arrival m.clocks delay

def launch (h : HostPipe) (m : Moment) (delay : Nat) (bytes : List UInt8) : HostPipe :=
  match h.os with
  | .linux => h.withPipe (h.toPipe.launch m.clocks delay bytes 0)
  | _ =>
    if h.atOnce m.clocks delay then h.arrive bytes
    else { h with inFlight := h.inFlight ++ [⟨h.arrival m delay, bytes, 0⟩] }

variable (m : Moment)

def writeAfter (bytes : List UInt8) (delay : Nat) :
    HostPipe × Option Nat :=
  if h.sendingClosed then (h, none)
  else
    let n := h.accepts bytes
    if n = 0 then (h, some 0)
    else if h.os = .linux ∧ h.throughTransport then
      (h.withPipe (h.writeTransport m.clocks (bytes.take n) delay), some n)
    else (h.launch m delay (bytes.take n), some n)

/-! ## Reading -/

def early : Option Read :=
  if h.os = .windows ∧ h.reset then some .reset
  else if h.os ≠ .linux ∧ h.readShut then some .shut
  else none

/-- Copies out up to `len` readable bytes. Only Linux goes on to what its read has let through. -/
def read (h : HostPipe) (m : Moment) (len : Nat) : HostPipe × Read :=
  match h.os with
  | .linux =>
    let (p, r) := h.toPipe.read m.clocks len
    (h.withPipe p, r)
  | _ =>
    match h.early with
    | some r => (h, r)
    | none =>
      let h := h.land m
      if h.buf = [] then (h, h.atEnd m.clocks)
      else (h.withPipe (h.drain (h.buf.take len).length), .data (h.buf.take len))

def peek (len : Nat) : HostPipe × Read :=
  match h.early with
  | some r => (h, r)
  | none =>
    let h := h.land m
    (h, if h.buf = [] then h.atEnd m.clocks else .data (h.buf.take len))

/-! ## Readiness -/

def readableOrClosed : HostPipe × Bool :=
  let h := h.land m
  (h, !h.buf.isEmpty || (h.reset && !h.pending) || h.readShut
    || (h.closed && !h.pending && (h.held m.clocks).isNone))

def canWrite (len : Nat) : HostPipe × Bool :=
  match h.capacity with
  | none => (h, true)
  | some cap =>
    let h := h.land m
    (h, h.sendingClosed || decide (takes h.os cap h.used len h.writer.isSome > 0))

def writable : HostPipe × Bool :=
  match h.capacity with
  | none => (h, true)
  | some cap =>
    let h := h.land m
    if h.sendingClosed then (h, true)
    else
      let free := cap - h.used
      (h, match h.os with
        | .linux => decide (free > 0 ∧ free ≥ h.used / 2)
        | .macos => decide (free ≥ min macSndlowat cap)
        | .windows => decide (free > 0))

/-! ## Ending the stream, and its two ends -/

def shutRead : HostPipe :=
  match h.os with
  | .macos => { h.land m with buf := [], chunks := [], readShut := true }
  | _ => { h with readShut := true }

def resetState : HostPipe :=
  let h := { h with reset := true, closed := true }.land m
  match h.os with
  | .windows => { h with buf := [], chunks := [], inFlight := [] }
  | _ => h

/-- `reset_quiet_at` (macOS): what was due by `cutoff` lands, the rest is dropped. -/
def resetQuietAt (cutoff : Deadline) : HostPipe :=
  { h.landFlights fun at_ =>
      decide ((m.effective at_).instant ≤ cutoff.instant) && (m.effective at_).passed m.clocks with
    inFlight := [], closed := true, reset := true }

def readBy (h : HostPipe) (rec : SockRec) : HostPipe :=
  match h.os with
  | .linux => h.withPipe (h.toPipe.readBy rec)
  | _ => { h with reader := h.reader.or (some rec) }

/-- The pipe after an action. What only changes around a pipe is the same on every host. -/
def apply (h : HostPipe) (m : Moment) : Op → HostPipe
  | .writeAfter bytes delay => (h.writeAfter m bytes delay).1
  | .land => h.land m
  | .read len => (h.read m len).1
  | .peek len => (h.peek m len).1
  | .shutRead => h.shutRead m
  | .reset => h.resetState m
  | .readBy rec => h.readBy rec
  | op => h.withPipe (h.toPipe.apply m.clocks op).1

/-! ## A pipe stays on its host -/

@[simp] theorem arrive_os : (h.arrive bytes).os = h.os := by
  unfold arrive
  split <;> rfl

@[simp] theorem landFlights_os (lands : Deadline → Bool) : (h.landFlights lands).os = h.os := by
  fun_induction landFlights h lands with
  | case1 h hflights => rfl
  | case2 h flight rest hflights hlands ih => simpa using ih
  | case3 h flight rest hflights hlands => rfl

@[simp] theorem land_os : (h.land m).os = h.os := by
  unfold land
  split
  · rfl
  · split
    · exact landFlights_os _ _
    · rfl
  · split
    · rfl
    · split
      · rfl
      · exact landFlights_os _ _

@[simp] theorem writeAfter_os (bytes : List UInt8) (delay : Nat) :
    (h.writeAfter m bytes delay).1.os = h.os := by
  unfold writeAfter launch
  dsimp only
  repeat' split
  all_goals first | rfl | exact arrive_os _ _

@[simp] theorem read_os (len : Nat) : (h.read m len).1.os = h.os := by
  unfold read
  split
  · rfl
  · split
    · rfl
    · dsimp only
      split <;> exact land_os h m

theorem apply_os (op : Op) : (h.apply m op).os = h.os := by
  cases op with
  | writeAfter bytes delay => exact writeAfter_os h m bytes delay
  | land => exact land_os h m
  | read len => exact read_os h m len
  | peek len =>
    unfold apply peek
    dsimp only
    split
    · rfl
    · exact land_os h m
  | shutRead =>
    unfold apply shutRead
    dsimp only
    split
    · exact land_os h m
    · rfl
  | reset =>
    have hland := land_os { h with reset := true, closed := true } m
    unfold apply resetState
    dsimp only
    split <;> exact hland
  | readBy rec =>
    unfold apply readBy
    dsimp only
    split <;> rfl
  | _ => rfl

/-! ## The Linux build -/

section Linux

variable {h : HostPipe} (hos : h.os = .linux)
include hos

variable (m : Moment)

theorem land_linux : h.land m = h.withPipe (h.toPipe.land m.clocks) := by
  simp only [land, hos]

theorem early_linux : h.early = none := by
  simp [early, hos]

theorem capacity_linux : h.capacity = h.toPipe.capacity := by
  obtain ⟨p, os, aborted⟩ := h
  obtain rfl : os = .linux := hos
  rfl

theorem accepts_linux (bytes : List UInt8) : h.accepts bytes = h.toPipe.accepts bytes := by
  have htakes : ∀ cap used len own, takes .linux cap used len own = Pipe.takes cap used len := by
    intro cap used len own
    cases own <;> rfl
  simp only [accepts, Pipe.accepts, capacity_linux hos, hos, htakes]

theorem writeAfter_linux (bytes : List UInt8) (delay : Nat) :
    h.writeAfter m bytes delay = (h.withPipe (h.toPipe.writeAfter m.clocks bytes delay).1,
        (h.toPipe.writeAfter m.clocks bytes delay).2) := by
  have hclosed : h.sendingClosed = h.closed := by simp [sendingClosed, hos]
  unfold writeAfter Pipe.writeAfter
  simp only [hclosed, h.accepts_linux hos, hos, true_and]
  split
  · rfl
  · split
    · rfl
    · split
      · rfl
      · simp only [launch, hos]

theorem apply_linux (op : Op) : h.apply m op = h.withPipe (h.toPipe.apply m.clocks op).1 := by
  cases op with
  | writeAfter bytes delay => simp only [apply, Pipe.apply, writeAfter_linux hos]
  | land => exact land_linux hos m
  | read len => simp only [apply, read, hos, Pipe.apply]
  | peek len => simp only [apply, peek, early_linux hos, land_linux hos, Pipe.apply, Pipe.peek]
  | shutRead | reset =>
    obtain ⟨p, os, aborted⟩ := h
    obtain rfl : os = .linux := hos
    rfl
  | readBy rec => simp only [apply, readBy, hos, Pipe.apply]
  | _ => rfl

end Linux

end HostPipe

/-! ## Runs -/

/-- Something done to a pipe of one of the builds. -/
inductive HostOp where
  | op (op : Op)
  | resetQuietAt (cutoff : Deadline)
  | abortWriter
  /-- The holds and stalls of the past that macOS reads change. -/
  | effective (effective : Deadline → Deadline)

structure HostLine where
  pipe : HostPipe
  moment : Moment
  /-- Not in the source: what the reader is charged for besides this pipe's bytes, which is what it
  held when it became the reader and the error reports queued since. -/
  other : Nat

namespace HostLine

def begin (os : Os) (via : Option LinkState) (ends : Option Ends) (moment : Moment) : HostLine :=
  ⟨.new os via ends, moment, 0⟩

variable (l : HostLine)

/-- The reader's charge for anything but the pipe's bytes, after an action. -/
def otherAfter : Op → Nat
  | .readBy rec => if l.pipe.reader.isSome then l.other else rec.buf.rmemAlloc
  | .admitError charge =>
    if l.pipe.reader.any fun rec => (rec.buf.admitError charge).2 then l.other + charge else l.other
  | .consumeError charge => if l.pipe.reader.isSome then l.other - charge else l.other
  | _ => l.other

/-- What can be done: a socket's counter holds 64 bits, an error report leaves the queue with the
charge it came with, and two of the calls are made on macOS only. -/
def enabled : HostOp → Bool
  | .op (.readBy rec) => rec.buf.rmemAlloc ≤ u64Max
  | .op (.admitError charge) => l.pipe.reader.all fun rec => rec.buf.rmemAlloc + charge ≤ u64Max
  | .op (.consumeError charge) => charge ≤ l.other
  | .resetQuietAt _ | .abortWriter => l.pipe.os == .macos
  | _ => true

def step (a : HostOp) : HostLine :=
  if !l.enabled a then l
  else
    match a with
    | .op (.tick clocks) => { l with moment := { l.moment with clocks } }
    | .op op => { l with pipe := l.pipe.apply l.moment op, other := l.otherAfter op }
    | .resetQuietAt cutoff => { l with pipe := l.pipe.resetQuietAt l.moment cutoff }
    | .abortWriter => { l with pipe := { l.pipe with writerAborted := true } }
    | .effective effective => { l with moment := { l.moment with effective } }

end HostLine

end Snare.Stream
