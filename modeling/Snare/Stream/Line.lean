import Snare.Stream.Pipe
import Snare.Lib.Runs

/-!
# Runs of a pipe

Everything that happens to one direction of a connection, as actions on a `Line`: the pipe, what the
clocks read, and two ghost lists, the bytes `write_after` accepted and the bytes `read` returned.
-/

namespace Snare.Stream

/-- Something done to a pipe: the calls of its two ends, and the changes around it that its
functions read. -/
inductive Op where
  | writeAfter (bytes : List UInt8) (delay : Nat)
  | land
  | read (len : Nat)
  | peek (len : Nat)
  | close
  | shutRead
  | reset
  /-- The link goes up or down, or is removed. -/
  | link (link : LinkState)
  | stall (receiveUntil sendUntil : Option Deadline)
  | recvWindow (window : Option Nat)
  /-- The writer's `SO_TIMESTAMPING` flags are set. -/
  | timestamping (flags : UInt32)
  | readBy (rec : SockRec)
  | writeBy (rec : SockRec)
  | pendingReader (buf : SockBuf)
  | setMtu (mtu : Nat)
  /-- `SO_RCVBUF` is set at the reader. -/
  | setRcvbuf (value : Int)
  /-- `SO_SNDBUF` is set at the writer. -/
  | setSndbuf (value : Int)
  /-- An error report is queued at the reader. -/
  | admitError (charge : Nat)
  | consumeError (charge : Nat)
  | tick (now : Clocks)

def Read.bytes : Read → List UInt8
  | .data bytes => bytes
  | _ => []

def Read.isEof : Read → Bool
  | .eof => true
  | _ => false

/-- What an action hands over: the bytes accepted, those returned, and whether the reader was told
that the stream is over. -/
structure Effect where
  accepted : List UInt8 := []
  taken : List UInt8 := []
  eof : Bool := false

def SockRec.mapBuf (f : SockBuf → SockBuf) (rec : SockRec) : SockRec :=
  { rec with buf := f rec.buf }

def Pipe.apply (p : Pipe) (now : Clocks) : Op → Pipe × Effect
  | .writeAfter bytes delay =>
    let (p, n) := p.writeAfter now bytes delay
    (p, { accepted := bytes.take (n.getD 0) })
  | .land => (p.land now, {})
  | .read len =>
    let (p, r) := p.read now len
    (p, { taken := r.bytes, eof := r.isEof })
  | .peek len =>
    let (p, r) := p.peek now len
    (p, { eof := r.isEof })
  | .close => (p.close, {})
  | .shutRead => (p.shutRead, {})
  | .reset => (p.resetState now, {})
  | .link link => ({ p with via := p.via.map fun _ => link }, {})
  | .stall receiveUntil sendUntil =>
    ({ p with ends := p.ends.map fun ends => { ends with receiveUntil, sendUntil } }, {})
  | .recvWindow recvWindow =>
    ({ p with ends := p.ends.map fun ends => { ends with recvWindow } }, {})
  | .timestamping flags => ({ p with writer := p.writer.map fun rec => { rec with flags } }, {})
  | .readBy rec => (p.readBy rec, {})
  | .writeBy rec => (p.writeBy rec, {})
  | .pendingReader buf => (p.pendingReader buf, {})
  | .setMtu mtu => (p.setMtu mtu, {})
  | .setRcvbuf rcvbuf =>
    ({ p with reader := p.reader.map (.mapBuf fun b => { b with rcvbuf, rcvLocked := true }) }, {})
  | .setSndbuf sndbuf =>
    ({ p with writer := p.writer.map (.mapBuf fun b => { b with sndbuf }) }, {})
  | .admitError charge =>
    ({ p with reader := p.reader.map (.mapBuf fun b => (b.admitError charge).1) }, {})
  | .consumeError charge =>
    ({ p with reader := p.reader.map (.mapBuf fun b => b.consumeError charge) }, {})
  | .tick _ => (p, {})

/-- A pipe in use, with the bytes accepted and returned so far. -/
structure Line where
  pipe : Pipe
  now : Clocks
  accepted : List UInt8
  delivered : List UInt8

namespace Line

def begin (via : Option LinkState) (ends : Option Ends) (now : Clocks) : Line :=
  ⟨Pipe.new via ends, now, [], []⟩

def effect (l : Line) (op : Op) : Effect := (l.pipe.apply l.now op).2

def step (l : Line) (op : Op) : Line where
  pipe := (l.pipe.apply l.now op).1
  now := match op with
    | .tick now => now
    | _ => l.now
  accepted := l.accepted ++ (l.effect op).accepted
  delivered := l.delivered ++ (l.effect op).taken

end Line

end Snare.Stream
