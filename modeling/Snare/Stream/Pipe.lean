import Snare.Host
import Snare.Stream.Transport

/-!
# One direction of a TCP stream

A `Pipe` carries bytes from a writer to a reader. A byte it holds is in one of three places:
readable (`buf`), crossing the link (`inFlight`), or waiting in the transport for the receive
window. The functions below are those of the Linux build; `now` is what the clocks read while one of
them runs.

What only observers see is left out: wakes and readiness, delivery counts, transmit hooks and
timestamp reports.
-/

namespace Snare.Stream

/-! ## Deadlines and stalls -/

/-- The clocks a deadline is read on. The virtual one is absent while it runs as fast as possible.
-/
structure Clocks where
  virtual : Option Nat
  real : Nat

structure Deadline where
  instant : Nat
  onVirtual : Bool

namespace Deadline

def after (now : Clocks) (span : Nat) : Deadline :=
  match now.virtual with
  | some v => ⟨v + span, true⟩
  | none => ⟨now.real + span, false⟩

/-- Whether the deadline has been reached. A virtual one whose clock has since started to run as
fast as possible counts as passed. -/
def passed (d : Deadline) (now : Clocks) : Bool :=
  if d.onVirtual then now.virtual.all (d.instant ≤ ·) else d.instant ≤ now.real

/-- `max_by_key(Deadline::instant)`: the last of the latest. -/
def latest (ds : List Deadline) : Option Deadline :=
  ds.foldl
    (fun best d =>
      match best with
      | none => some d
      | some b => if b.instant ≤ d.instant then some d else some b)
    none

end Deadline

/-! ## The two ends -/

structure SysLimits where
  skbSmallTruesize : Nat := 960
  tcpRmemDefault : Nat := 131072
  tcpGsoMaxSize : Nat := 65536

/-- The addresses a pipe carries bytes between, as the policies on them and the sim's limits. -/
structure Ends where
  limits : SysLimits
  toV6 : Bool := false
  /-- The receive window of the TCP policy at the reading address. -/
  recvWindow : Option Nat := none
  /-- The stall at the reading address. -/
  receiveUntil : Option Deadline := none
  /-- The stall at the writing address. -/
  sendUntil : Option Deadline := none

/-- `held_until`: when the last stall that still holds ends. -/
def Ends.heldUntil (ends : Ends) (now : Clocks) : Option Deadline :=
  Deadline.latest
    ((ends.receiveUntil.toList ++ ends.sendUntil.toList).filter fun d => !d.passed now)

structure LinkState where
  removed : Bool
  usable : Bool

def LinkState.releases (link : LinkState) : Bool := link.removed || link.usable

/-- A socket's buffers, with the memory its receive queue is charged for. -/
structure SockBuf where
  rcvbuf : Int
  sndbuf : Int
  rcvLocked : Bool
  enforceError : Bool
  errorMem : Nat
  /-- `skb_small_truesize` and `skb_head_overhead`. -/
  skb : Nat × Nat
  rmemAlloc : Nat

namespace SockBuf

variable (b : SockBuf)

def tcpSendSpace : Nat := b.sndbuf.toNat

def tcpRecvSpace : Nat := b.rcvbuf.toNat

def errorCharge (len : Nat) (v6 : Bool) : Nat := linuxTruesize len v6 b.skb

def takeTcp (len : Nat) : SockBuf × Nat :=
  let charge := satAdd b.skb.1 len
  ({ b with rmemAlloc := satAdd b.rmemAlloc charge }, charge)

/-- The loop of `read_by`: charges each of the chunks that wait. -/
def takeChunks (b : SockBuf) : List Nat → SockBuf × List (Nat × Nat)
  | [] => (b, [])
  | len :: rest =>
    let (b', charge) := b.takeTcp len
    let (b'', rxMemory) := b'.takeChunks rest
    (b'', (len, charge) :: rxMemory)

variable (charge : Nat)

def consumeTcp : SockBuf :=
  { b with rmemAlloc := b.rmemAlloc - charge }

def admitError : SockBuf × Bool :=
  if b.enforceError ∧ satAdd b.rmemAlloc charge ≥ b.rcvbuf.toNat then (b, false)
  else ({ b with rmemAlloc := b.rmemAlloc + charge, errorMem := b.errorMem + charge }, true)

def consumeError : SockBuf :=
  { b with rmemAlloc := b.rmemAlloc - charge, errorMem := b.errorMem - charge }

end SockBuf

/-- A socket of the code under test: its buffers and its `SO_TIMESTAMPING` flags. -/
structure SockRec where
  buf : SockBuf
  flags : UInt32

def txHardware : UInt32 := (1 : UInt32) <<< 0
def txSoftware : UInt32 := (1 : UInt32) <<< 1
def txSched : UInt32 := (1 : UInt32) <<< 8
def txAck : UInt32 := (1 : UInt32) <<< 9

/-- `tcp_requested`: whether the socket asks for transmit timestamps. -/
def SockRec.tcpRequested (r : SockRec) : Bool :=
  r.flags &&& (txSched ||| txSoftware ||| txAck ||| txHardware) != 0

/-! ## The pipe -/

/-- Bytes crossing the link, and when they arrive. -/
structure Flight where
  at_ : Deadline
  bytes : List UInt8
  mss : Nat

structure PipeInner where
  /-- Bytes that have arrived and wait to be read. -/
  buf : List UInt8 := []
  /-- The sizes of the chunks `buf` holds, oldest first; the front one may be partly read. -/
  chunks : List Nat := []
  /-- The unread size and the memory charge of each chunk. -/
  rxMemory : List (Nat × Nat) := []
  closed : Bool := false
  readShut : Bool := false
  reset : Bool := false
  inFlight : List Flight := []
  transport : Option TcpTransport := none
  transportDelay : Nat := 0

structure Pipe extends PipeInner where
  reader : Option SockRec := none
  writer : Option SockRec := none
  pendingRecvSpace : Option Nat := none
  pendingRecvLocked : Option Bool := none
  mtu : Option Nat := none
  via : Option LinkState
  ends : Option Ends

/-- What an arrival costs the reader: the size of a packet's head, the charge, the memory the
receive queue then takes, and the reader charged. -/
structure Charge where
  head : Nat
  charge : Nat
  memory : Nat
  reader : Option SockRec

inductive Read where
  | data (bytes : List UInt8)
  | wouldBlock
  | eof
  | reset
  /-- The reader shut its receive side down and the host reports that at once (macOS, Windows). -/
  | shut

namespace Pipe

def new (via : Option LinkState) (ends : Option Ends) : Pipe := { via, ends }

variable (p : Pipe)

def backlog : List UInt8 := p.transport.elim [] fun t => t.bytes

def crossing : List UInt8 := p.inFlight.flatMap Flight.bytes

def used : Nat :=
  p.buf.length + (p.inFlight.map fun f => f.bytes.length).sum
    + p.transport.elim 0 fun t => t.pendingBytes

def pending : Bool :=
  !p.inFlight.isEmpty || p.transport.any fun t => decide (t.pendingBytes > 0)

variable (now : Clocks)

def held : Option Deadline := p.ends.bind fun ends => ends.heldUntil now

def linkUp : Bool := p.via.all LinkState.releases

/-- What an arrival costs: a tester's charges are summed over the queue. -/
def charge (p : Pipe) (ends : Ends) (len : Nat) : Charge :=
  match p.reader with
  | some rec =>
    let (buf, charge) := rec.buf.takeTcp len
    ⟨rec.buf.errorCharge 0 false, charge, buf.rmemAlloc, some { rec with buf }⟩
  | none =>
    let head := ends.limits.skbSmallTruesize
    let charge := head + len
    ⟨head, charge, (p.rxMemory.map Prod.snd).sum + charge, none⟩

def arrive (p : Pipe) (bytes : List UInt8) (mss : Nat) : Pipe :=
  if bytes = [] then p
  else
    match p.ends with
    | none => { p with buf := p.buf ++ bytes, chunks := p.chunks ++ [bytes.length] }
    | some ends =>
      let c := p.charge ends bytes.length
      { p with
        buf := p.buf ++ bytes
        chunks := p.chunks ++ [bytes.length]
        reader := c.reader
        rxMemory := p.rxMemory ++ [(bytes.length, c.charge)]
        transport := p.transport.map fun t => t.arrive bytes.length mss c.memory c.head }

variable (delay : Nat)

/-- When bytes sent now arrive: after the delay, but not before those in flight nor before a stall
ends. -/
def arrival : Deadline :=
  ((p.inFlight.getLast?.map Flight.at_).toList ++ (p.held now).toList).foldl
    (fun at_ later => if later.instant > at_.instant then later else at_) (.after now delay)

def atOnce : Bool :=
  delay == 0 && p.inFlight.isEmpty && (p.held now).isNone && p.linkUp

def launch (bytes : List UInt8) (mss : Nat) : Pipe :=
  if p.atOnce now delay then p.arrive bytes mss
  else { p with inFlight := p.inFlight ++ [⟨p.arrival now delay, bytes, mss⟩] }

variable (bytes : List UInt8)

theorem arrive_backlog (mss : Nat) : (p.arrive bytes mss).backlog = p.backlog := by
  unfold arrive backlog
  split
  · rfl
  · split
    · rfl
    · cases p.transport with
      | none => rfl
      | some t => simp only [Option.map_some, Option.elim_some, (t.arrive_frame ..).1]

theorem launch_backlog (bytes : List UInt8) (mss : Nat) :
    (p.launch now delay bytes mss).backlog = p.backlog := by
  unfold launch
  split
  · exact p.arrive_backlog bytes mss
  · rfl

theorem arrive_inFlight (mss : Nat) : (p.arrive bytes mss).inFlight = p.inFlight := by
  unfold arrive
  split
  · rfl
  · split <;> rfl

def transmit (p : Pipe) (now : Clocks) : Pipe :=
  match _hnext : p.transport.bind TcpTransport.next with
  | none => p
  | some (t, seg) =>
    ({ p with transport := some t }.launch now p.transportDelay seg.bytes seg.mss).transmit now
termination_by p.backlog.length
decreasing_by
  obtain ⟨t₀, ht₀, hnext⟩ := Option.bind_eq_some_iff.mp _hnext
  obtain ⟨hseg, hbytes, -⟩ := TcpTransport.next_spec hnext
  -- every segment takes bytes off the backlog
  rw [launch_backlog]
  simp only [backlog, ht₀, Option.elim_some, ← hbytes, List.length_append]
  exact Nat.lt_add_of_pos_left (List.length_pos_iff.mpr hseg)

def landFlights (p : Pipe) (now : Clocks) : Pipe :=
  match _hflights : p.inFlight with
  | [] => p
  | flight :: rest =>
    if flight.at_.passed now then
      ({ p with inFlight := rest }.arrive flight.bytes flight.mss).landFlights now
    else p
termination_by p.inFlight.length
decreasing_by
  rw [arrive_inFlight, _hflights]
  exact Nat.lt_succ_self _

/-- Moves what has arrived into the readable buffer, while the link is up and no stall holds it, and
sends what the window then lets through. -/
def land : Pipe :=
  if !p.linkUp then p
  else if (p.held now).isSome then p
  else (p.landFlights now).transmit now

/-! ## Writing -/

/-- The room at the reader's end: its receive buffer, capped by the policy's window. -/
def recvRoom : Option Nat := do
  let ends ← p.ends
  let room := (p.reader.map fun rec => rec.buf.tcpRecvSpace).or p.pendingRecvSpace
  match ends.recvWindow, room with
  | some w, some r => some (min w r)
  | w, r => w.or r

def capacity : Option Nat := do
  let window ← p.recvRoom
  return satAdd window (p.writer.elim 0 fun rec => rec.buf.tcpSendSpace)

/-- How much of a write of `len` bytes a pipe holding `used` of `cap` takes. -/
def takes (cap used len : Nat) : Nat :=
  let free := cap - used
  if free ≥ len then len else free

def accepts : Nat :=
  p.capacity.elim bytes.length fun cap => takes cap p.used bytes.length

/-- Whether a write goes through the transport: the reader's buffer was set by the code under test,
or the writer asks for timestamps. -/
def throughTransport : Bool :=
  p.ends.isSome &&
    (p.reader.any (fun rec => rec.buf.rcvLocked) || p.pendingRecvLocked.getD false
      || p.writer.any SockRec.tcpRequested)

def transportBuffer : Nat :=
  ((p.reader.map fun rec => rec.buf.rcvbuf.toNat).or p.pendingRecvSpace).getD
    (p.ends.elim 0 fun ends => ends.limits.tcpRmemDefault)

def openTransport : TcpTransport :=
  p.transport.getD
    (.new p.transportBuffer (p.mtu.getD 65536) (p.ends.any fun ends => ends.toV6)
      (p.ends.elim 0 fun ends => ends.limits.tcpGsoMaxSize))

/-- A write through the transport: at once if it fits a segment and the window, else queued. -/
def writeTransport (bytes : List UInt8) (delay : Nat) : Pipe :=
  let t := p.openTransport
  match if p.atOnce now delay then t.direct bytes.length else none with
  | some (t, mss) =>
    { p with transport := some t, transportDelay := delay }.arrive bytes mss
  | none =>
    { p with transport := some (t.push bytes), transportDelay := delay }.transmit now

/-- Writes as much as the window has room for, readable `delay` from now or once a stall ends. The
bytes written, or `none` once the stream is closed. -/
def writeAfter (bytes : List UInt8) (delay : Nat) : Pipe × Option Nat :=
  if p.closed then (p, none)
  else
    let n := p.accepts bytes
    if n = 0 then (p, some 0)
    else if p.throughTransport then (p.writeTransport now (bytes.take n) delay, some n)
    else (p.launch now delay (bytes.take n) 0, some n)

/-! ## Reading -/

/-- The loop of `read_chunk` that takes `left` read bytes off the chunk sizes. -/
def dropChunks : Nat → List Nat → List Nat
  | _, [] => []
  | left, front :: rest =>
    if left = 0 then front :: rest
    else if front ≤ left then dropChunks (left - front) rest
    else (front - left) :: rest

/-- The loop of `read_chunk` that takes `left` read bytes off the charged chunks: the memory given
back, and the charges that stay. -/
def giveBack : Nat → List (Nat × Nat) → Nat × List (Nat × Nat)
  | _, [] => (0, [])
  | left, (unread, charge) :: rest =>
    if left = 0 then (0, (unread, charge) :: rest)
    else if unread ≤ left then
      let (returned, rxMemory) := giveBack (left - unread) rest
      (charge + returned, rxMemory)
    else (0, (unread - left, charge) :: rest)

def atEnd : Read :=
  if p.reset && !p.pending then .reset
  else if (p.closed && !p.pending && (p.held now).isNone) || p.readShut then .eof
  else .wouldBlock

variable (rec : SockRec) (n : Nat)

/-- Gives back the receive memory of `n` read bytes and advertises the window anew. -/
def credit : Pipe :=
  let buf := rec.buf.consumeTcp (giveBack n p.rxMemory).1
  { p with
    rxMemory := (giveBack n p.rxMemory).2
    reader := some { rec with buf }
    transport := p.transport.map fun t => t.advertise buf.rmemAlloc }

/-- What follows a read of `n` bytes: a reader of the code under test opens the window, and what it
then lets through is sent. -/
def release : Pipe :=
  match p.reader with
  | none => p
  | some rec => (p.credit rec n).transmit now

def drain : Pipe :=
  { p with buf := p.buf.drop n, chunks := dropChunks n p.chunks }

variable (len : Nat)

def readChunk : Pipe × Read :=
  let p := p.land now
  if p.buf = [] then (p, p.atEnd now)
  else
    let out := p.buf.take len
    ((p.drain out.length).release now out.length, .data out)

theorem atEnd_ne_data (out : List UInt8) : p.atEnd now ≠ .data out := by
  unfold atEnd
  split
  · exact nofun
  · split <;> exact nofun

theorem readChunk_data {p p' : Pipe} {now : Clocks} {len : Nat} {out : List UInt8}
    (h : p.readChunk now len = (p', .data out)) :
    (p.land now).buf ≠ [] ∧ out = (p.land now).buf.take len
      ∧ p' = ((p.land now).drain out.length).release now out.length := by
  unfold readChunk at h
  dsimp only at h
  split at h
  · exact absurd (congrArg Prod.snd h) (atEnd_ne_data _ _ _)
  · next hbuf =>
    obtain ⟨rfl, rfl⟩ := h
    exact ⟨hbuf, rfl, rfl⟩

/-- The loop of `read`: room for `len` more bytes, `copied` read so far. -/
def readLoop (p : Pipe) (now : Clocks) (len : Nat) (copied : List UInt8) : Pipe × Read :=
  match _hchunk : p.readChunk now len with
  | (p', .data out) =>
    if out.length = len ∨ p'.ends.isNone then (p', .data (copied ++ out))
    else p'.readLoop now (len - out.length) (copied ++ out)
  | (p', other) => (p', if copied = [] then other else .data copied)
termination_by len
decreasing_by
  obtain ⟨hbuf, hout, -⟩ := readChunk_data _hchunk
  have hlen : out.length = min len (p.land now).buf.length := by rw [hout, List.length_take]
  have hpos := List.length_pos_iff.mpr hbuf
  omega

/-- Copies out up to `len` readable bytes, landing what has arrived first. -/
def read : Pipe × Read := p.readLoop now len []

def peek : Pipe × Read :=
  let p := p.land now
  (p, if p.buf = [] then p.atEnd now else .data (p.buf.take len))

/-! ## Ending the stream, and its two ends -/

def shutRead : Pipe := { p with readShut := true }

def close : Pipe := { p with closed := true }

/-- Aborts the stream as a TCP reset does; bytes sent before it remain readable. -/
def resetState : Pipe := { p with reset := true, closed := true }.land now

/-- `read_by`: makes `rec` the reader, charged for what waits. -/
def readBy : Pipe :=
  match p.reader with
  | some _ => p
  | none =>
    if p.ends.isSome then
      let (buf, rxMemory) := rec.buf.takeChunks p.chunks
      { p with reader := some { rec with buf }, rxMemory }
    else { p with reader := some rec }

def writeBy : Pipe := { p with writer := p.writer.or (some rec) }

/-- `pending_reader`: the buffers of the socket an accept will make the reader. -/
def pendingReader (buf : SockBuf) : Pipe :=
  { p with
    pendingRecvSpace := p.pendingRecvSpace.or (some buf.tcpRecvSpace)
    pendingRecvLocked := p.pendingRecvLocked.or (some buf.rcvLocked) }

def setMtu (mtu : Nat) : Pipe := { p with mtu := p.mtu.or (some mtu) }

end Pipe

end Snare.Stream
