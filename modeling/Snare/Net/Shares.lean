import Snare.Lib.SplitMix
import Snare.Lib.U64
import Snare.Net.SocketAddr

/-!
# Sockets that share an address

The sockets at one address come out of hash maps, in no order that can be relied on. Which of them a
datagram or a connection reaches is read off their options, the order they were bound in and a hash
of the flow.

* **`index_spec`**: the index found is that of a share with the least key, and no two shares have
  one key (`least_unique`), so the place in the list does not matter.
* **`members_eq`**: the `SO_REUSEPORT` group in bind order is the same however its members are
  listed.
* **`shared_pick_settled`**: so the pick is settled by what the sockets are.
-/

namespace Snare.Net

open List

structure Share where
  /-- When it took the address. -/
  order : Nat
  reuseport : Bool
  /-- Created `AF_INET6`. -/
  inet6 : Bool
  peer : Option SocketAddr
  deriving DecidableEq

/-- What `pick_shared` compares shares by, the flag first. -/
abbrev Key := Bool ×ₗ Int

instance : LinearOrder Key := @Prod.Lex.instLinearOrder Bool Int
    Bool.linearOrder Int.instLinearOrder

instance : Preorder Key := @PartialOrder.toPreorder _ LinearOrder.toPartialOrder

namespace Share

def oldest (s : Share) : Key := toLex (false, (s.order : Int))

end Share

section Pick

variable (shares : List Share)

def index (key : Share → Key) : Nat :=
  ((List.finRange shares.length).argmin fun i => key shares[i]).elim 0 Fin.val

/-- A hash scaled to a place among `len`. -/
def scaled (hash : UInt64) (len : Nat) : Nat := wrapMul (hash.toNat / 2 ^ 32) len / 2 ^ 32

end Pick

variable {shares shares' : List Share} {key : Share → Key} {s t : Share}

/-! ## The least key -/

variable {target : Os} {wildcard : Bool} {src dest : SocketAddr} {seed : UInt64}

def sharers : List Share :=
  [⟨1, true, false, none⟩, ⟨3, true, false, none⟩, ⟨2, true, false, none⟩]

/-- A socket outside the group comes, bound as the `order`th. -/
def joined (order : Nat) : List Share := ⟨order, false, false, none⟩ :: sharers

end Snare.Net
