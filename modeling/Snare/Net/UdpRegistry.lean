import Snare.Lib.Directory
import Snare.Net.SocketAddr

/-!
# Datagram sockets and the delivery map

A bound datagram socket has its address in the socket table and its queue in the delivery map at
that address. The table and the map have a lock each, taken one after the other: a call reads the
socket in one section, and changes the map and the socket in later ones.

* **`Place`**: where a call stands between two sections, with what it read;
* **`Act`**: the sections, with what the routes and the checks answer;
* **`step`**: what each does; one that is not a call's next does nothing.
-/

namespace Snare.Udp

open Function Net

/-- What the record and the queue of a socket hold, which outlive it while a call uses them. -/
structure Queue where
  inet6 : Bool := false
  v6only : Bool := false
  nextPort : Nat := 0

structure Sock where
  addr : Option SocketAddr := none
  requested : Option SocketAddr := none
  peer : Option SocketAddr := none

/-- What a call does once the socket's address is settled. -/
inductive After where
  | done
  | peer (server : SocketAddr)
  /-- macOS: connects the socket its association was dissolved of. -/
  | again (server : SocketAddr)
  deriving DecidableEq

/-- Where a call stands. The socket it read is `id`, at `fd` then. -/
inductive Place where
  | idle
  | sending (fd id : Nat) (bound requested : Option SocketAddr) (dest : SocketAddr)
  | connect (fd : Nat) (server : SocketAddr)
  | connecting (fd id : Nat) (bound requested : Option SocketAddr) (server : SocketAddr)
  | dissolving (fd : Nat) (after : After)
  /-- `autobind`, before it registers the queue. -/
  | binding (fd id : Nat) (ip : IpAddr) (after : After)
  /-- `rehash`, before it moves the queue. -/
  | rehashing (fd id : Nat) (src dst : SocketAddr) (after : After)
  /-- `autobind` or `rehash`: the queue is in the map at `dst`, the socket is to be told. -/
  | settling (fd id : Nat) (dst : SocketAddr) (after : After)
  | peering (fd : Nat) (server : SocketAddr)
  /-- `disconnect_dgram` has unbound the socket: the next port is to be kept, then the queue
  withdrawn. -/
  | releasing (fd id : Nat) (bound : SocketAddr) (after : After)
  /-- The queue is to be withdrawn, after a disconnect or a close. -/
  | withdrawing (fd id : Nat) (bound : SocketAddr) (after : After)
  deriving DecidableEq

structure State where
  host : Host
  /-- The calls, of the threads below `threads`. -/
  threads : Nat := 0
  calls : Nat → Place := fun _ => .idle
  /-- The socket table: which socket a descriptor names, and the open sockets. -/
  descriptors : Nat → Option Nat := fun _ => none
  socks : Nat → Option Sock := fun _ => none
  nextId : Nat := 0
  queues : Nat → Queue := fun _ => {}
  /-- The delivery map: `bound`, of the sockets' queues and of the testers' endpoints. -/
  udp : List (SocketAddr × Nat) := []
  endpoints : List SocketAddr := []

inductive Act where
  | socket (t fd : Nat) (inet6 v6only : Bool)
  /-- `refused`: the address, its port, or another socket's claim. -/
  | bind (t fd : Nat) (want : SocketAddr) (refused : Bool)
  | send (t fd : Nat) (dest : SocketAddr)
  /-- `refused`: the datagram's size or a pending error; `route` is none where there is no route or
  the datagram does not fit it. -/
  | sendOn (t : Nat) (refused : Bool) (route : Option Sender)
  | connect (t fd : Nat) (server : SocketAddr)
  | look (t : Nat)
  | connectOn (t : Nat) (route : Option Sender)
  | disconnect (t fd : Nat)
  | dissolve (t : Nat)
  | register (t : Nat)
  | rehash (t : Nat)
  | settle (t : Nat)
  | setPeer (t : Nat)
  | storePort (t : Nat)
  | withdraw (t : Nat)
  | close (t fd : Nat)

namespace State

variable (s : State)

def goto (t : Nat) (p : Place) : State := { s with calls := update s.calls t p }

def sock (fd : Nat) : Option (Nat × Sock) :=
  (s.descriptors fd).bind fun id => (s.socks id).map fun sock => (id, sock)

def addrOf (id : Nat) : Option SocketAddr := (s.socks id).bind Sock.addr

def setSock (id : Nat) (sock : Sock) : State :=
  { s with socks := update s.socks id (some sock) }

/-! ## Ports -/

def dual (id : Nat) (ip : IpAddr) : Bool := dualAt (s.queues id).inet6 (s.queues id).v6only ip

def registered : List SocketAddr := s.udp.map Prod.fst ++ s.endpoints

/-- Whether one of the sets `alloc_port_from` looks at holds `port`. -/
def taken (ip : IpAddr) (dual : Bool) (port : Nat) : Bool :=
  let dualPort := !ip.v6 && s.udp.any fun e => e.1.port == port && s.dual e.2 e.1.addr
  if dual then s.registered.any fun a => a.port == port
  else if ip.isUnspecified then
    (s.registered.any fun a => a.port == port && a.v6 == ip.v6) || dualPort
  else
    (s.registered.any fun a => a.port == port && (a.addr == ip || a.addr == ip.unspecifiedLike)) ||
      dualPort

/-- `alloc_port_from`: the lowest free port from `first` on, else the lowest. -/
def allocPortFrom (ip : IpAddr) (first : Nat) (dual : Bool) : Option Nat :=
  let ports := List.range' firstPort dynamicPorts
  (ports.find? fun port => decide (first ≤ port) && !s.taken ip dual port).or
    (ports.find? fun port => !s.taken ip dual port)

/-! ## The sections -/

def finish (t fd : Nat) : After → State
  | .done => s.goto t .idle
  | .peer server => s.goto t (.peering fd server)
  | .again server => s.goto t (.connect fd server)

variable (t fd id : Nat)

def rehashTo (src dst : SocketAddr) (after : After) : State :=
  if src = dst then s.finish t fd after else s.goto t (.rehashing fd id src dst after)

/-- The address a bind takes: as asked, or with a port of the dynamic range. -/
def bindAddr (id : Nat) (want : SocketAddr) : Option SocketAddr :=
  if want.port = 0 then
    (s.allocPortFrom want.addr firstPort (s.dual id want.addr)).map (.new want.addr)
  else if want ∈ s.endpoints then none
  else some want

def bind (fd : Nat) (want : SocketAddr) (refused : Bool) : State :=
  match s.sock fd with
  | none => s
  | some (id, sock) =>
    if sock.addr.isSome ∨ refused then s
    else
      match s.bindAddr id want with
      | none => s
      | some addr =>
        { s with udp := Directory.addNew s.udp addr id }.setSock id
          { sock with addr := some addr, requested := some want }

def sendOn (bound requested : Option SocketAddr) (dest : SocketAddr)
    (refused : Bool) (route : Option Sender) : State :=
  let inet6 := (s.queues id).inet6
  if refused then s.goto t .idle
  else if inet6 ∧
      dgramCrosses s.host (s.queues id).v6only (bound.or (unhashed requested)) dest false then
    if s.host = .linux ∧ bound = none ∧ requested = none then
      s.goto t (.binding fd id (.unspecified true) .done)
    else s.goto t .idle
  else
    match route, bound with
    | none, _ => s.goto t .idle
    | some _, some _ => s.goto t .idle
    | some _, none =>
      s.goto t (.binding fd id (requested.elim (.unspecified inet6) SocketAddr.addr) .done)

def look (t fd : Nat) (server : SocketAddr) : State :=
  match s.sock fd with
  | none => s.goto t .idle
  | some (id, sock) =>
    let inet6 := (s.queues id).inet6
    match s.host, sock.peer with
    | .macos, some peer =>
      s.goto t (.dissolving fd (if inet6 ∧ peer.v6 ≠ server.v6 then .done else .again server))
    | _, _ =>
      if inet6 ∧ dgramCrosses s.host (s.queues id).v6only
          (sock.addr.or (unhashed sock.requested)) server true then
        s.goto t .idle
      else s.goto t (.connecting fd id sock.addr sock.requested server)

def connectOn (bound requested : Option SocketAddr) (server : SocketAddr) : Option Sender → State
  | none => s.goto t .idle
  | some sender =>
    match bound with
    | none =>
      let unbound := ((unhashed requested).map (SocketAddr.toward · server)).getD
        (.new server.addr.unspecifiedLike 0)
      s.goto t (.binding fd id (sender.connectedLocal unbound).addr (.peer server))
    | some src => s.rehashTo t fd id src (sender.connectedLocal (src.toward server)) (.peer server)

/-- The address a disconnect that keeps the port returns to. -/
def wildcard (id : Nat) (bound : SocketAddr) (requested : Option SocketAddr) : IpAddr :=
  let inet6 := (s.queues id).inet6
  ((requested.map SocketAddr.addr).filter fun ip =>
    s.host == .linux && ip != .unspecified inet6).getD
    (if inet6 ∧ (s.host = .linux ∨ bound.v6) then .unspecified true else bound.addr.unspecifiedLike)

def dissolve (t fd : Nat) (after : After) : State :=
  match s.sock fd with
  | none => s.finish t fd after
  | some (id, sock) =>
    let sock := { sock with peer := none }
    match sock.addr with
    | none => (s.setSock id sock).finish t fd after
    | some bound =>
      if s.host = .linux ∧ sock.requested.all (·.port == 0) then
        (s.setSock id { sock with addr := none }).goto t (.releasing fd id bound after)
      else
        (s.setSock id sock).rehashTo t fd id bound
          (.new (s.wildcard id bound sock.requested) bound.port) after

/-- The address `autobind` finds for the socket. -/
def freeAddr (id : Nat) (ip : IpAddr) : Option SocketAddr :=
  (s.allocPortFrom ip (s.queues id).nextPort (s.dual id ip)).map (.new ip)

def register (ip : IpAddr) (after : After) : State :=
  match s.freeAddr id ip with
  | none => s.goto t .idle
  | some dst =>
    { s with udp := Directory.addNew s.udp dst id }.goto t (.settling fd id dst after)

/-- The end of `autobind` and `rehash`, under the table's lock: whatever socket the descriptor names
now gets the address. -/
def settle (t fd : Nat) (dst : SocketAddr) (after : After) : State :=
  match s.sock fd with
  | none => s.finish t fd after
  | some (id, sock) => (s.setSock id { sock with addr := some dst }).finish t fd after

def setPeer (t fd : Nat) (server : SocketAddr) : State :=
  match s.sock fd with
  | none => s.goto t .idle
  | some (id, sock) => (s.setSock id { sock with peer := some server }).goto t .idle

def storePort (bound : SocketAddr) (after : After) : State :=
  let nextPort := if bound.port + 1 < 2 ^ 16 then bound.port + 1 else firstPort
  { s with queues := update s.queues id { s.queues id with nextPort } }.goto t
    (.withdrawing fd id bound after)

def close (t fd : Nat) : State :=
  match s.sock fd with
  | none => s
  | some (id, sock) =>
    let s' := { s with
      descriptors := update s.descriptors fd none
      socks := update s.socks id none }
    match sock.addr with
    | none => s'
    | some bound => s'.goto t (.withdrawing fd id bound .done)

def socket (fd : Nat) (inet6 v6only : Bool) : State :=
  if s.descriptors fd = none then
    { s with
      descriptors := update s.descriptors fd (some s.nextId)
      socks := update s.socks s.nextId (some {})
      queues := update s.queues s.nextId { inet6, v6only }
      nextId := s.nextId + 1 }
  else s

def access (t : Nat) (p : Place) : Act → State
  | .socket _ fd inet6 v6only => if p = .idle then s.socket fd inet6 v6only else s
  | .bind _ fd want refused => if p = .idle then s.bind fd want refused else s
  | .send _ fd dest =>
    match p, s.sock fd with
    | .idle, some (id, sock) => s.goto t (.sending fd id sock.addr sock.requested dest)
    | _, _ => s
  | .sendOn _ refused route =>
    match p with
    | .sending fd id bound requested dest => s.sendOn t fd id bound requested dest refused route
    | _ => s
  | .connect _ fd server => if p = .idle then s.goto t (.connect fd server) else s
  | .look _ =>
    match p with
    | .connect fd server => s.look t fd server
    | _ => s
  | .connectOn _ route =>
    match p with
    | .connecting fd id bound requested server => s.connectOn t fd id bound requested server route
    | _ => s
  | .disconnect _ fd => if p = .idle then s.goto t (.dissolving fd .done) else s
  | .dissolve _ =>
    match p with
    | .dissolving fd after => s.dissolve t fd after
    | _ => s
  | .register _ =>
    match p with
    | .binding fd id ip after => s.register t fd id ip after
    | _ => s
  | .rehash _ =>
    match p with
    | .rehashing fd id src dst after =>
      { s with udp := Directory.addNew (Directory.dropFirst s.udp src id) dst id }.goto t
        (.settling fd id dst after)
    | _ => s
  | .settle _ =>
    match p with
    | .settling fd _ dst after => s.settle t fd dst after
    | _ => s
  | .setPeer _ =>
    match p with
    | .peering fd server => s.setPeer t fd server
    | _ => s
  | .storePort _ =>
    match p with
    | .releasing fd id bound after => s.storePort t fd id bound after
    | _ => s
  | .withdraw _ =>
    match p with
    | .withdrawing fd id bound after =>
      { s with udp := Directory.dropFirst s.udp bound id }.finish t fd after
    | _ => s
  | .close _ fd => if p = .idle then s.close t fd else s

end State

def Act.thread : Act → Nat
  | .socket t _ _ _ | .bind t _ _ _ | .send t _ _ | .sendOn t _ _ | .connect t _ _ | .look t
  | .connectOn t _ | .disconnect t _ | .dissolve t | .register t | .rehash t | .settle t
  | .setPeer t | .storePort t | .withdraw t | .close t _ => t

def State.step (s : State) (a : Act) : State :=
  if a.thread < s.threads then s.access a.thread (s.calls a.thread) a else s

end Snare.Udp
