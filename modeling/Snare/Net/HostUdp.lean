import Snare.Lib.Directory
import Snare.Net.SocketAddr

/-!
# The simulated host's datagram sockets

The host keeps its sockets, the descriptors that name them and the table of bound addresses under
one lock. A call reads the socket in one section, decides outside, and acts in another.

* **`Place`**: where a call stands between two sections, with what it read;
* **`Act`**: the sections, with what the routes and the checks answer;
* **`step`**: what each does; one that is not a call's next does nothing, and none does once a call
  has panicked, which poisons the lock.
-/

namespace Snare.HostUdp

open Function Net

/-- What a socket's record holds, which outlives it while a call uses it. -/
structure Rec where
  inet6 : Bool := false
  v6only : Bool := false

structure UdpSocket where
  fd : Nat
  /-- In order. -/
  descriptors : List Nat
  addr : Option SocketAddr := none
  requested : Option SocketAddr := none
  peer : Option SocketAddr := none

inductive Place where
  | idle
  | binding (fd id : Nat)
  | connect (fd : Nat) (server : SocketAddr)
  | connecting (fd id : Nat) (bound requested : Option SocketAddr) (server : SocketAddr)
  | dissolving (fd : Nat)
  /-- `rest` is none for a whole datagram, else the segments that follow. -/
  | sending (fd id : Nat) (bound requested : Option SocketAddr) (dest : SocketAddr)
    (rest : Option Nat)
  | autobinding (fd : Nat) (ip : IpAddr) (dest : SocketAddr) (rest : Option Nat)
  /-- The next of `rest` segments is to be sent. -/
  | segments (fd : Nat) (dest : SocketAddr) (rest : Nat)
  deriving DecidableEq

structure State where
  /-- The calls, of the threads below `threads`. -/
  threads : Nat := 0
  calls : Nat → Place := fun _ => .idle
  panicked : Bool := false
  descriptors : Nat → Option Nat := fun _ => none
  sockets : Nat → Option UdpSocket := fun _ => none
  recs : Nat → Rec := fun _ => {}
  nextId : Nat := 0
  bound : List (SocketAddr × Nat) := []
  nextEphemeral : Nat := firstPort

inductive Act where
  | socket (t fd : Nat) (inet6 v6only : Bool)
  | bind (t fd : Nat)
  /-- `want` is none where the address is refused; `conflict` is with another socket's claim. -/
  | bindOn (t : Nat) (want : Option SocketAddr) (conflict : Bool)
  | connect (t fd : Nat) (server : SocketAddr)
  | look (t : Nat)
  | connectOn (t : Nat) (route : Option Sender)
  | disconnect (t fd : Nat)
  | dissolve (t : Nat)
  | send (t fd : Nat) (dest : SocketAddr)
  /-- `refused`: a pending error, a datagram too large, a stalled link. -/
  | sendOn (t : Nat) (refused : Bool) (route : Option Sender) (segments : Nat)
  | autobind (t : Nat)
  | segment (t : Nat)
  /-- `F_DUPFD`, to a free number; `dup2`, to any. -/
  | dup (t fd newfd : Nat)
  | dupTo (t fd newfd : Nat)
  | close (t fd : Nat)

namespace State

variable (s : State)

def goto (t : Nat) (p : Place) : State := { s with calls := update s.calls t p }

def sock (fd : Nat) : Option (Nat × UdpSocket) :=
  (s.descriptors fd).bind fun id => (s.sockets id).map fun sock => (id, sock)

variable (id : Nat)

def addrOf : Option SocketAddr := (s.sockets id).bind UdpSocket.addr

def setSock (sock : UdpSocket) : State :=
  { s with sockets := update s.sockets id (some sock) }

def dual (ip : IpAddr) : Bool := dualAt (s.recs id).inet6 (s.recs id).v6only ip

/-! ## Ports -/

def taken (ip : IpAddr) (dual : Bool) (port : Nat) : Bool :=
  s.bound.any fun (a, id) =>
    a.port == port &&
      (dual || (a.v6 == ip.v6 && (a.addr == ip || ip.isUnspecified || a.addr.isUnspecified)) ||
        (!ip.v6 && (s.sockets id).isSome && s.dual id a.addr))

/-- The tries of `alloc_ephemeral`: the port found, and the one to try next time. -/
def allocFrom (ip : IpAddr) (dual : Bool) : Nat → Nat → Option Nat × Nat
  | 0, port => (none, port)
  | tries + 1, port =>
    let next := if port = 2 ^ 16 - 1 then firstPort else port + 1
    if s.taken ip dual port then allocFrom ip dual tries next else (some port, next)

def allocEphemeral (ip : IpAddr) (dual : Bool) : Option Nat × State :=
  let found := s.allocFrom ip dual dynamicPorts s.nextEphemeral
  (found.1, { s with nextEphemeral := found.2 })

/-! ## The tables -/

def bindUdp (addr : SocketAddr) (id : Nat) : State :=
  { s with bound := Directory.add s.bound addr id }

def unbindUdp (addr : SocketAddr) (id : Nat) : State :=
  { s with bound := Directory.dropAll s.bound addr id }

variable (fd : Nat)

def rehash (src dst : SocketAddr) : State :=
  match s.sock fd with
  | none => s
  | some (id, sock) =>
    if src = dst then s
    else ((s.unbindUdp src id).bindUdp dst id).setSock id { sock with addr := some dst }

/-- Binds the socket that `fd` names; none where there is no socket or no port. -/
def autobindFd (ip : IpAddr) : Option SocketAddr × State :=
  match s.sock fd with
  | none => (none, s)
  | some (id, sock) =>
    match s.allocEphemeral ip (s.dual id ip) with
    | (none, s) => (none, s)
    | (some port, s) =>
      let addr := SocketAddr.new ip port
      (some addr, (s.bindUdp addr id).setSock id { sock with addr := some addr })

/-- `remove_socket`: the descriptor is closed, and the socket with its last one. -/
def closeFd : State :=
  match s.descriptors fd with
  | none => s
  | some id =>
    let s' := { s with descriptors := update s.descriptors fd none }
    match s.sockets id with
    | none => s'
    | some sock =>
      match sock.descriptors.erase fd with
      | remaining :: rest =>
        s'.setSock id { sock with fd := remaining, descriptors := remaining :: rest }
      | [] =>
        let s' := { s' with sockets := update s.sockets id none }
        sock.addr.elim s' fun addr => s'.unbindUdp addr id

def aliasFd (fd newfd : Nat) : State :=
  match s.sock fd with
  | none => { s with panicked := true }
  | some (id, sock) =>
    { s with descriptors := update s.descriptors newfd (some id) }.setSock id
      { sock with
        descriptors :=
          if newfd ∈ sock.descriptors then sock.descriptors
          else sock.descriptors.orderedInsert (· ≤ ·) newfd }

/-! ## The sections -/

/-- The address a bind takes, and the state the search for a port leaves. -/
def bindAddr (want : SocketAddr) (conflict : Bool) : Option SocketAddr × State :=
  if want.port = 0 then
    let found := s.allocEphemeral want.addr (s.dual id want.addr)
    (found.1.map (.new want.addr), found.2)
  else (if conflict then none else some want, s)

/-- The second section of `bind`: the socket read before is registered, and the one that the
descriptor names now gets the address. -/
def bindOn (fd id : Nat) (want : SocketAddr) (conflict : Bool) : State :=
  match s.bindAddr id want conflict with
  | (none, s) => s
  | (some addr, s) =>
    let s := s.bindUdp addr id
    match s.sock fd with
    | none => { s with panicked := true }
    | some (id', sock) => s.setSock id' { sock with addr := some addr, requested := some want }

def look (t fd : Nat) (server : SocketAddr) : State :=
  match s.sock fd with
  | none => s.goto t .idle
  | some (id, sock) =>
    if (s.recs id).inet6 ∧ dgramCrosses .linux (s.recs id).v6only
        (sock.addr.or (unhashed sock.requested)) server true then
      s.goto t .idle
    else s.goto t (.connecting fd id sock.addr sock.requested server)

def setPeer (server : SocketAddr) : State :=
  match s.sock fd with
  | none => { s with panicked := true }
  | some (id, sock) => s.setSock id { sock with peer := some server }

/-- The last section of `connect`, which looks at the socket's address again. -/
def connectOn (bound requested : Option SocketAddr) (server : SocketAddr)
    (sender : Sender) : State :=
  match s.sock fd with
  | none => s
  | some (_, sock) =>
    match sock.addr with
    | none =>
      let unbound := ((bound.or (unhashed requested)).map (SocketAddr.toward · server)).getD
        (.new server.addr.unspecifiedLike 0)
      match s.autobindFd fd (sender.connectedLocal unbound).addr with
      | (none, s) => s
      | (some _, s) => s.setPeer fd server
    | some src =>
      (s.rehash fd src (sender.connectedLocal (src.toward server))).setPeer fd server

def dissolve : State :=
  match s.sock fd with
  | none => s
  | some (id, sock) =>
    let sock := { sock with peer := none }
    match sock.addr with
    | none => s.setSock id sock
    | some bound =>
      let ip := ((sock.requested.map SocketAddr.addr).filter fun ip => !ip.isUnspecified).getD
        (.unspecified (s.recs id).inet6)
      if sock.requested.any (·.port != 0) then
        (s.setSock id sock).rehash fd bound (.new ip bound.port)
      else (s.setSock id { sock with addr := none }).unbindUdp bound id

def sent (t fd : Nat) (dest : SocketAddr) : Option Nat → State
  | none => s.goto t .idle
  | some rest => s.goto t (.segments fd dest rest)

def sendOn (t fd id : Nat) (bound requested : Option SocketAddr) (dest : SocketAddr)
    (rest : Option Nat) (refused : Bool) (route : Option Sender) (segments : Nat) : State :=
  let inet6 := (s.recs id).inet6
  if refused then s.goto t .idle
  else if inet6 ∧
      dgramCrosses .linux (s.recs id).v6only (bound.or (unhashed requested)) dest false then
    if bound = none ∧ requested = none then
      s.goto t (.autobinding fd (.unspecified true) dest none)
    else s.goto t .idle
  else if route = none then s.goto t .idle
  else if 1 < segments ∧ rest = none then s.goto t (.segments fd dest segments)
  else
    match bound with
    | some _ => s.sent t fd dest rest
    | none =>
      s.goto t (.autobinding fd (requested.elim (.unspecified inet6) SocketAddr.addr) dest rest)

/-- The last section of `udp_send` on a socket that was unbound when it was read. -/
def autobind (t fd : Nat) (ip : IpAddr) (dest : SocketAddr) (rest : Option Nat) : State :=
  match s.autobindFd fd ip with
  | (none, s) => s.goto t .idle
  | (some _, s) => s.sent t fd dest rest

def segment (t fd : Nat) (dest : SocketAddr) : Nat → State
  | 0 => s.goto t .idle
  | rest + 1 =>
    match s.sock fd with
    | none => s.goto t (.segments fd dest rest)
    | some (id, sock) => s.goto t (.sending fd id sock.addr sock.requested dest (some rest))

def dupTo (fd newfd : Nat) : State :=
  match s.descriptors fd with
  | none => s
  | some id => if s.descriptors newfd = some id then s else (s.closeFd newfd).aliasFd fd newfd

def socket (inet6 v6only : Bool) : State :=
  if s.descriptors fd = none then
    { s with
      descriptors := update s.descriptors fd (some s.nextId)
      sockets := update s.sockets s.nextId (some { fd, descriptors := [fd] })
      recs := update s.recs s.nextId { inet6, v6only }
      nextId := s.nextId + 1 }
  else s

def access (t : Nat) (p : Place) : Act → State
  | .socket _ fd inet6 v6only => if p = .idle then s.socket fd inet6 v6only else s
  | .bind _ fd =>
    match p, s.sock fd with
    | .idle, some (id, sock) => if sock.addr.isSome then s else s.goto t (.binding fd id)
    | _, _ => s
  | .bindOn _ want conflict =>
    match p, want with
    | .binding fd id, some want => (s.bindOn fd id want conflict).goto t .idle
    | .binding _ _, none => s.goto t .idle
    | _, _ => s
  | .connect _ fd server =>
    if p = .idle ∧ (s.descriptors fd).isSome then s.goto t (.connect fd server) else s
  | .look _ =>
    match p with
    | .connect fd server => s.look t fd server
    | _ => s
  | .connectOn _ route =>
    match p, route with
    | .connecting fd _ bound requested server, some sender =>
      (s.connectOn fd bound requested server sender).goto t .idle
    | .connecting _ _ _ _ _, none => s.goto t .idle
    | _, _ => s
  | .disconnect _ fd =>
    if p = .idle ∧ (s.descriptors fd).isSome then s.goto t (.dissolving fd) else s
  | .dissolve _ =>
    match p with
    | .dissolving fd => (s.dissolve fd).goto t .idle
    | _ => s
  | .send _ fd dest =>
    match p, s.sock fd with
    | .idle, some (id, sock) => s.goto t (.sending fd id sock.addr sock.requested dest none)
    | _, _ => s
  | .sendOn _ refused route segments =>
    match p with
    | .sending fd id bound requested dest rest =>
      s.sendOn t fd id bound requested dest rest refused route segments
    | _ => s
  | .autobind _ =>
    match p with
    | .autobinding fd ip dest rest => s.autobind t fd ip dest rest
    | _ => s
  | .segment _ =>
    match p with
    | .segments fd dest rest => s.segment t fd dest rest
    | _ => s
  | .dup _ fd newfd =>
    if p = .idle ∧ (s.sock fd).isSome ∧ s.descriptors newfd = none then s.aliasFd fd newfd else s
  | .dupTo _ fd newfd => if p = .idle ∧ (s.sock fd).isSome then s.dupTo fd newfd else s
  | .close _ fd => if p = .idle ∧ (s.sock fd).isSome then s.closeFd fd else s

end State

def Act.thread : Act → Nat
  | .socket t _ _ _ | .bind t _ | .bindOn t _ _ | .connect t _ _ | .look t | .connectOn t _
  | .disconnect t _ | .dissolve t | .send t _ _ | .sendOn t _ _ _ | .autobind t | .segment t
  | .dup t _ _ | .dupTo t _ _ | .close t _ => t

def State.step (s : State) (a : Act) : State :=
  if s.panicked = false ∧ a.thread < s.threads then s.access a.thread (s.calls a.thread) a else s

end Snare.HostUdp
