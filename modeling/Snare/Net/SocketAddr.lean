import Snare.Host

/-!
# Socket addresses

Addresses as the datagram sockets use them: the wildcard of a family, the address a socket stands at
once it is connected along a route, and the ports a socket may be given.
-/

namespace Snare.Net

structure SocketAddr where
  v6 : Bool
  ip : Nat
  port : Nat
  deriving DecidableEq

structure IpAddr where
  v6 : Bool
  ip : Nat
  deriving DecidableEq

namespace IpAddr

def unspecified (v6 : Bool) : IpAddr := ⟨v6, 0⟩

def isUnspecified (a : IpAddr) : Bool := a.ip == 0

def unspecifiedLike (a : IpAddr) : IpAddr := unspecified a.v6

end IpAddr

namespace SocketAddr

def new (ip : IpAddr) (port : Nat) : SocketAddr := ⟨ip.v6, ip.ip, port⟩

def addr (a : SocketAddr) : IpAddr := ⟨a.v6, a.ip⟩

/-- The wildcard of the family of `dest`, where the socket stands at the other family's. -/
def toward (a dest : SocketAddr) : SocketAddr :=
  if a.v6 ∧ dest.v6 = false ∧ a.addr.isUnspecified then new (.unspecified false) a.port
  else if a.v6 = false ∧ dest.v6 then new (.unspecified true) a.port
  else a

end SocketAddr

/-- What an unbound datagram socket still holds of the address its `bind` named. -/
def unhashed (requested : Option SocketAddr) : Option SocketAddr :=
  requested.map fun r => .new r.addr 0

/-- Where a datagram leaves from: the host, with the source address of the route, or a station. -/
inductive Sender where
  | host (src : IpAddr)
  | station

namespace Sender

def source (s : Sender) (a : SocketAddr) : SocketAddr :=
  match s with
  | .host src => if a.addr.isUnspecified then .new src a.port else a
  | .station => a

/-- Where a datagram socket bound at `a` stands once it connects along the route: an IPv6 socket
takes an IPv4 source as a mapped address. -/
def connectedLocal (s : Sender) (a : SocketAddr) : SocketAddr :=
  let src := s.source a
  match src.v6, a.v6 with
  | false, true => .new ⟨true, 0xffff * 2 ^ 32 + src.ip⟩ a.port
  | true, false => a
  | _, _ => src

end Sender

/-- `dgram_crossing`, for whether it refuses: an IPv6 socket that is to reach an address of the
other family. -/
def dgramCrosses (host : Host) (v6only : Bool) (bound : Option SocketAddr) (dest : SocketAddr)
    (connect : Bool) : Bool :=
  if dest.v6 = false then
    (host == .linux && v6only) || bound.any fun l => l.v6 && !l.addr.isUnspecified
  else
    match bound.filter fun l => !l.v6 with
    | none => false
    | some l => host == .linux || connect || !l.addr.isUnspecified

def dualAt (inet6 v6only : Bool) (a : IpAddr) : Bool :=
  inet6 && !v6only && a == .unspecified true

def firstPort : Nat := 49152
def dynamicPorts : Nat := 16384

end Snare.Net
