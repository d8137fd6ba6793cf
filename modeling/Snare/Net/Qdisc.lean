import Snare.Host
import Snare.Lib.SortedMap

/-!
# The qdisc tables of a host's interfaces

`RTM_NEWQDISC` and `RTM_DELQDISC` requests as the host applies them: from the bytes of the message
to the root qdisc and the per-queue qdiscs of one interface. An index or a slice that the source
leaves to the bounds check is checked here, and `Fault.panic` is what the check would do.
-/

namespace Snare.Net

/-- How a request fails: with an error number, or in the host itself. -/
inductive Fault where
  | error (e : Errno)
  | panic
  deriving DecidableEq

def fail {α : Type} (e : Errno) : Except Fault α := .error (.error e)

def refuseIf (c : Bool) (e : Errno) : Except Fault Unit := if c then fail e else .ok ()

/-! ## Bytes -/

variable (bytes : List UInt8)

def slice (start stop : Nat) : Except Fault (List UInt8) :=
  if start ≤ stop ∧ stop ≤ bytes.length then .ok ((bytes.drop start).take (stop - start))
  else .error .panic

def u16At (pos : Nat) : Except Fault UInt16 :=
  match bytes[pos]?, bytes[pos + 1]? with
  | some lo, some hi => .ok (lo.toUInt16 ||| hi.toUInt16 <<< 8)
  | _, _ => .error .panic

def u32At (pos : Nat) : Except Fault UInt32 :=
  match bytes[pos]?, bytes[pos + 1]?, bytes[pos + 2]?, bytes[pos + 3]? with
  | some a, some b, some c, some d =>
    .ok (a.toUInt32 ||| b.toUInt32 <<< 8 ||| c.toUInt32 <<< 16 ||| d.toUInt32 <<< 24)
  | _, _, _, _ => .error .panic

def nextMultipleOf4 (n : Nat) : Nat := (n + 3) / 4 * 4

/-- The payload of attribute `want` in a run of `struct nlattr`, from an offset on. -/
def findAttrFrom (attrs : List UInt8) (want : UInt16) (pos : Nat) :
    Except Fault (Option (List UInt8)) :=
  if pos + 4 ≤ attrs.length then
    match u16At attrs pos, u16At attrs (pos + 2) with
    | .ok len, .ok ty =>
      if len.toNat < 4 ∨ attrs.length < pos + len.toNat then .ok none
      else if ty &&& 0x3FFF = want then
        match slice attrs (pos + 4) (pos + len.toNat) with
        | .ok payload => .ok (some payload)
        | .error fault => .error fault
      else findAttrFrom attrs want (pos + nextMultipleOf4 len.toNat)
    | .error fault, _ => .error fault
    | _, .error fault => .error fault
  else .ok none
termination_by attrs.length - pos
decreasing_by
  simp only [nextMultipleOf4]
  omega

def findAttr (attrs : List UInt8) (want : UInt16) : Except Fault (Option (List UInt8)) :=
  findAttrFrom attrs want 0

/-- What `String::from_utf8_lossy` makes of the bytes at the front: a character, or the replacement
for a maximal part of one, and how many bytes it takes. -/
def utf8Chunk : List UInt8 → Char × Nat
  | [] => ('�', 1)
  | first :: rest =>
    let b := first.toNat
    let next := fun (i lo hi : Nat) =>
      (rest[i]?.map UInt8.toNat).filter fun c => lo ≤ c && c ≤ hi
    if b < 0x80 then (Char.ofNat b, 1)
    else if 0xC2 ≤ b && b ≤ 0xDF then
      match next 0 0x80 0xBF with
      | some c => (Char.ofNat (b % 32 * 64 + c % 64), 2)
      | none => ('�', 1)
    else if 0xE0 ≤ b && b ≤ 0xEF then
      match next 0 (if b = 0xE0 then 0xA0 else 0x80) (if b = 0xED then 0x9F else 0xBF) with
      | none => ('�', 1)
      | some c =>
        match next 1 0x80 0xBF with
        | none => ('�', 2)
        | some d => (Char.ofNat (b % 16 * 4096 + c % 64 * 64 + d % 64), 3)
    else if 0xF0 ≤ b && b ≤ 0xF4 then
      match next 0 (if b = 0xF0 then 0x90 else 0x80) (if b = 0xF4 then 0x8F else 0xBF) with
      | none => ('�', 1)
      | some c =>
        match next 1 0x80 0xBF with
        | none => ('�', 2)
        | some d =>
          match next 2 0x80 0xBF with
          | none => ('�', 3)
          | some e =>
            (Char.ofNat (b % 8 * 262144 + c % 64 * 4096 + d % 64 * 64 + e % 64), 4)
    else ('�', 1)

/-- `String::from_utf8_lossy`, at most `n` characters of it. -/
def fromUtf8LossyUpTo : Nat → List UInt8 → List Char
  | 0, _ => []
  | _, [] => []
  | n + 1, bytes =>
    let (c, taken) := utf8Chunk bytes
    c :: fromUtf8LossyUpTo n (bytes.drop taken)

def fromUtf8Lossy : String :=
  String.ofList (fromUtf8LossyUpTo bytes.length bytes)

/-! ## Constants -/

def TC_H_ROOT : UInt32 := 0xFFFFFFFF
def TC_H_INGRESS : UInt32 := 0xFFFFFFF1
def TC_H_MAJ_MASK : UInt32 := 0xFFFF0000
def TC_H_MIN_MASK : UInt32 := 0x0000FFFF
def NLM_F_REPLACE : UInt16 := 0x100
def NLM_F_EXCL : UInt16 := 0x200
def NLM_F_CREATE : UInt16 := 0x400
def TCA_KIND : UInt16 := 1
def TCA_OPTIONS : UInt16 := 2
def TCA_ETF_PARMS : UInt16 := 1
def TC_ETF_OFFLOAD_ON : UInt32 := 2
def CLOCK_TAI : Int32 := 11

def KINDS : List String :=
  ["pfifo_fast", "pfifo", "bfifo", "noqueue", "fq", "fq_codel", "codel",
    "sfq", "prio", "tbf", "htb",
    "mq", "mqprio", "taprio", "etf"]

/-! ## One interface -/

/-- One qdisc: its kind, handle and, for `etf`, its `(delta, clockid, flags)`. -/
structure Qdisc where
  kind : String
  handle : UInt32
  etf : Option (Int32 × Int32 × UInt32)

/-- An interface's qdiscs: the root and, under a classful root, one per transmit queue by class
minor (queue + 1). -/
structure NicQdiscs where
  root : Qdisc
  children : SortedMap Nat Qdisc

structure Device where
  numTxQueues : Nat
  realTxQueues : Nat
  noQueue : Bool
  defaultQdisc : String
  /-- The transmit queues whose driver can launch frames at their time. -/
  etfOffload : Option (List UInt16)

def classfulKind (kind : String) : Bool := kind = "mq" || kind = "mqprio" || kind = "taprio"

namespace NicQdiscs

variable (dev : Device)

/-- The default qdisc `mq` puts on the queue of a class. -/
def defaultFor (minor : Nat) : Qdisc where
  kind := if minor ≤ dev.realTxQueues then dev.defaultQdisc else "pfifo_fast"
  handle := 0
  etf := none

/-- One default qdisc per allocated transmit queue, the number of which is cast to `u32`. -/
def defaults : SortedMap Nat Qdisc :=
  (List.range' 1 (dev.numTxQueues % 2 ^ 32)).foldl
    (fun children minor => children.insert minor (defaultFor dev minor)) .empty

/-- The qdiscs the kernel attaches to a device coming up. -/
def initial (etf : Option (Int32 × Int32 × UInt32)) : NicQdiscs :=
  let leaf := fun kind => { kind, handle := 0, etf := if kind = "etf" then etf else none : Qdisc }
  if dev.noQueue then { root := leaf "noqueue", children := .empty }
  else if 1 < dev.numTxQueues ∧ dev.defaultQdisc ≠ "etf" then
    { root := leaf "mq", children := defaults dev }
  else { root := leaf dev.defaultQdisc, children := .empty }

variable (q : NicQdiscs)

def classful : Bool := classfulKind q.root.kind

/-- `TCA_ETF_PARMS` among the options, if there are any. -/
def etfAttr : Option (List UInt8) → Except Fault (Option (List UInt8))
  | none => .ok none
  | some options => findAttr options TCA_ETF_PARMS

/-- The parameters of an `etf` qdisc at a transmit queue, checked. -/
def etfParms (options : Option (List UInt8)) (queue : Option UInt32) :
    Except Fault (Int32 × Int32 × UInt32) := do
  let attr ← etfAttr options
  match attr.filter fun parms => 12 ≤ parms.length with
  | none => fail .EINVAL
  | some parms =>
    let delta := (← u32At parms 0).toInt32
    let clockid := (← u32At parms 4).toInt32
    let flags ← u32At parms 8
    if clockid < 0 then fail .ENOTSUPP
    else if clockid ≠ CLOCK_TAI ∨ delta < 0 then fail .EINVAL
    else if flags &&& TC_ETF_OFFLOAD_ON ≠ 0 then
      match dev.etfOffload with
      | none => fail .EOPNOTSUPP
      | some queues =>
        if (queue.getD 0).toUInt16 ∈ queues then pure (delta, clockid, flags)
        else fail .EINVAL
    else pure (delta, clockid, flags)

/-- Builds the qdisc a request asks for at a transmit queue, checking its parameters. -/
def create (kind : String) (handle : UInt32) (options : Option (List UInt8))
    (queue : Option UInt32) : Except Fault Qdisc :=
  if kind ∉ KINDS then fail .ENOENT
  else if kind = "mq" ∧ (queue.isSome ∨ dev.numTxQueues < 2) then fail .EOPNOTSUPP
  else if kind = "etf" then do
    let parms ← etfParms dev options queue
    pure { kind, handle, etf := some parms }
  else .ok { kind, handle, etf := none }

/-- The name in a `TCA_KIND` attribute, up to its first zero byte. -/
def kindName (bytes : List UInt8) : String := fromUtf8Lossy (bytes.takeWhile (· ≠ 0))

/-- The transmit queue the parent of an `RTM_NEWQDISC` names, `none` for the root. -/
def modifyQueue (dev : Device) (parent : UInt32) : Except Fault (Option UInt32) :=
  if parent = TC_H_ROOT then .ok none
  else if q.root.handle = 0 ∨ q.root.handle &&& TC_H_MAJ_MASK ≠ parent &&& TC_H_MAJ_MASK then
    fail .ENOENT
  else if !q.classful then fail .EOPNOTSUPP
  else
    let minor := parent &&& TC_H_MIN_MASK
    if minor = 0 ∨ dev.numTxQueues < minor.toNat then fail .ENOENT
    else .ok (some (minor - 1))

/-- The qdisc at a class, by `self.children[&minor]`, or the root. -/
def there : Option Nat → Except Fault Qdisc
  | none => .ok q.root
  | some minor =>
    match q.children.get? minor with
    | some qdisc => .ok qdisc
    | none => .error .panic

/-- Whether a request makes a new qdisc in place of the one there, and if so whether it must carry
the create flag. -/
def decideCreate (existing : Qdisc) (differs : Bool) (flags : UInt16) (handle : UInt32) :
    Except Fault (Option Bool) :=
  let present := existing.handle ≠ 0
  let both := fun a b : UInt16 => flags &&& (a ||| b) = a ||| b
  if !present ∨ handle = 0 ∨ existing.handle ≠ handle then
    if handle ≠ 0 then
      if present ∧ flags &&& NLM_F_REPLACE = 0 then fail .EEXIST
      else if handle &&& TC_H_MIN_MASK ≠ 0 then fail .EINVAL
      else .ok (some true)
    else if !present ∨ differs ∧
      (both NLM_F_CREATE NLM_F_REPLACE ∨ both NLM_F_CREATE NLM_F_EXCL) then
      .ok (some true)
    else if differs ∧ flags &&& (NLM_F_CREATE ||| NLM_F_REPLACE ||| NLM_F_EXCL) = 0 then
      .ok (some false)
    else .ok none
  else .ok none

/-- A change in place of the qdisc there, which changes nothing. -/
def changeInPlace (existing : Qdisc) (differs : Bool) (flags : UInt16)
    (options : Option (List UInt8)) : Except Fault (Option (Option UInt32 × Qdisc)) := do
  refuseIf (flags &&& NLM_F_EXCL ≠ 0) .EEXIST
  refuseIf differs .EINVAL
  refuseIf (options.isSome && (existing.kind = "mq" || existing.kind = "etf")) .EINVAL
  return none

def replacement (auto : UInt32) (flags : UInt16) (handle : UInt32)
    (needsCreateFlag : Bool) (kind : Option String) (options : Option (List UInt8))
    (queue : Option UInt32) : Except Fault (Option (Option UInt32 × Qdisc)) := do
  refuseIf (needsCreateFlag && flags &&& NLM_F_CREATE = 0) .ENOENT
  match kind with
  | none => fail .EINVAL
  | some kind =>
    let new ← create dev kind (if handle ≠ 0 then handle else auto + 0x10000) options queue
    return some (queue, new)

/-- What an `RTM_NEWQDISC` comes to before anything changes: `none` for an accepted change in place,
else where a new qdisc goes, and the qdisc. -/
def planned (dev : Device) (auto : UInt32) (flags : UInt16) (handle parent : UInt32)
    (attrs : List UInt8) : Except Fault (Option (Option UInt32 × Qdisc)) := do
  let kindAttr ← findAttr attrs TCA_KIND
  let kind := kindAttr.map kindName
  let options ← findAttr attrs TCA_OPTIONS
  refuseIf (parent = TC_H_INGRESS) .EOPNOTSUPP
  refuseIf (parent = 0) (if handle = 0 then .EINVAL else .ENOENT)
  let queue ← q.modifyQueue dev parent
  let existing ← q.there (queue.map fun queue => (queue + 1).toNat)
  let differs := kind.any fun k => k ≠ existing.kind
  let create ← decideCreate existing differs flags handle
  match create with
  | none => changeInPlace existing differs flags options
  | some needsCreateFlag => replacement dev auto flags handle needsCreateFlag kind options queue

/-- `RTM_NEWQDISC`: the tables and the automatic handle after it, and its result. -/
def modify (dev : Device) (auto : UInt32) (flags : UInt16) (handle parent : UInt32)
    (attrs : List UInt8) : NicQdiscs × UInt32 × Except Fault Unit :=
  match q.planned dev auto flags handle parent attrs with
  | .error fault => (q, auto, .error fault)
  | .ok none => (q, auto, .ok ())
  | .ok (some (queue, new)) =>
    let auto := if handle = 0 then auto + 0x10000 else auto
    match queue with
    | none =>
      ({ root := new, children := if new.kind = "mq" then defaults dev else .empty }, auto, .ok ())
    | some queue => ({ q with children := q.children.insert (queue + 1).toNat new }, auto, .ok ())

/-- The class the parent of an `RTM_DELQDISC` names, `none` for the root. -/
def deleteQueue (dev : Device) (parent : UInt32) : Except Fault (Option UInt32) :=
  if parent = TC_H_ROOT then .ok none
  else if q.root.handle = 0 ∨ q.root.handle &&& TC_H_MAJ_MASK ≠ parent &&& TC_H_MAJ_MASK
      ∨ !q.classful then
    fail .ENOENT
  else
    let minor := parent &&& TC_H_MIN_MASK
    if minor = 0 ∨ dev.numTxQueues < minor.toNat then fail .ENOENT else .ok (some minor)

/-- What an `RTM_DELQDISC` comes to: the class whose qdisc goes, `none` for the root. -/
def toDelete (dev : Device) (handle parent : UInt32) : Except Fault (Option UInt32) := do
  refuseIf (parent = 0) .EINVAL
  let queue ← q.deleteQueue dev parent
  let there ← q.there (queue.map UInt32.toNat)
  refuseIf (handle ≠ 0 && there.handle ≠ handle) .EINVAL
  refuseIf (there.handle = 0) .ENOENT
  return queue

def delete (dev : Device) (handle parent : UInt32) :
    NicQdiscs × Except Fault Unit :=
  match q.toDelete dev handle parent with
  | .error fault => (q, .error fault)
  | .ok none => (initial dev none, .ok ())
  | .ok (some minor) =>
    ({ q with children := q.children.insert minor.toNat (defaultFor dev minor.toNat) }, .ok ())

end NicQdiscs

/-! ## The host -/

structure Nic where
  ifindex : UInt32
  numTxQueues : Nat
  realTxQueues : Nat
  noQueue : Bool
  etfOffload : Option (List UInt16)
  qdiscs : NicQdiscs

structure SimHost where
  /-- The caller has `CAP_NET_ADMIN`. -/
  netAdmin : Bool
  defaultQdisc : String
  qdiscAuto : UInt32 := 0x80000000
  nics : List Nic

def Nic.device (nic : Nic) (defaultQdisc : String) : Device where
  numTxQueues := nic.numTxQueues
  realTxQueues := nic.realTxQueues
  noQueue := nic.noQueue
  defaultQdisc := defaultQdisc
  etfOffload := nic.etfOffload

/-- An `RTM_NEWQDISC` (`new`) or `RTM_DELQDISC` with its netlink header's flags, as bytes. -/
structure Request where
  new : Bool
  flags : UInt16
  bytes : List UInt8

namespace Request

variable (r : Request)

def ifindex : Except Fault UInt32 := u32At r.bytes 20
def handle : Except Fault UInt32 := u32At r.bytes 24
def parent : Except Fault UInt32 := u32At r.bytes 28

/-- The attributes after the `struct tcmsg`, by the length the message claims. -/
def attrs : Except Fault (List UInt8) := do
  let len := (← u32At r.bytes 0).toNat
  slice r.bytes 36 (min (max len 36) r.bytes.length)

def rootKind : Option String :=
  match r.new, r.parent, r.attrs with
  | true, .ok parent, .ok attrs =>
    if parent = TC_H_ROOT then
      match findAttr attrs TCA_KIND with
      | .ok kind => kind.map NicQdiscs.kindName
      | .error _ => none
    else none
  | _, _, _ => none

end Request

namespace SimHost

variable (host : SimHost)

/-- Applies a request to an interface: its qdiscs and the automatic handle after it, and its
result. -/
def changeNic (nic : Nic) (r : Request) (handle parent : UInt32)
    (attrs : List UInt8) : NicQdiscs × UInt32 × Except Fault Unit :=
  let dev := nic.device host.defaultQdisc
  if r.new then nic.qdiscs.modify dev host.qdiscAuto r.flags handle parent attrs
  else
    let (qdiscs, result) := nic.qdiscs.delete dev handle parent
    (qdiscs, host.qdiscAuto, result)

def nicAt (ifindex : UInt32) : Except Fault (Nat × Nic) :=
  match host.nics.findIdx? fun nic => nic.ifindex = ifindex with
  | none => fail .ENODEV
  | some i =>
    match host.nics[i]? with
    | none => fail .ENODEV
    | some nic => .ok (i, nic)

/-- The interface a request is for, and the rest of what it says, checked in order. -/
def addressed (r : Request) : Except Fault ((Nat × Nic) × UInt32 × UInt32 × List UInt8) := do
  refuseIf (!host.netAdmin) .EPERM
  refuseIf (r.bytes.length < 36) .EINVAL
  let ifindex ← r.ifindex
  let handle ← r.handle
  let parent ← r.parent
  let attrs ← r.attrs
  let nic ← host.nicAt ifindex
  return (nic, handle, parent, attrs)

def changeQdisc (r : Request) : SimHost × Except Fault Unit :=
  match host.addressed r with
  | .error fault => (host, .error fault)
  | .ok ((i, nic), handle, parent, attrs) =>
    let (qdiscs, qdiscAuto, result) := host.changeNic nic r handle parent attrs
    ({ host with qdiscAuto, nics := host.nics.set i { nic with qdiscs } }, result)

def step (r : Request) : SimHost := (host.changeQdisc r).1

end SimHost

end Snare.Net
