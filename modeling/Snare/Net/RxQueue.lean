import Snare.Lib.U64
import Snare.Net.SocketAddr

/-!
# A datagram socket's receive path

`RxQueue` holds what is in flight to a socket and what has landed in its receive buffer; `SockBuf`
and its `RxAccount` count what the landed datagrams and the error reports cost. Datagrams land when
something looks at the queue, each admitted against the buffer as it stands then.

The clock is read anew for every datagram and every report that is checked (`Deadline::passed`), so
the model passes a `Clock` along that may move at each reading. All deadlines are on one clock.
`RxQueue.arrivals` and `RxQueue.gone` are not in the source: they record in which order datagrams
became readable and where the others went.
-/

namespace Snare.Net

inductive SocketKind where
  | udp
  | tcpStream
  | tcpListener
  | packet
  | netlink
  | unix
  deriving DecidableEq

/-! ## The clock -/

/-- A clock that never goes back: `ticks` is how far it moves before each of the next readings. -/
structure Clock where
  now : Nat
  ticks : List Nat

namespace Clock

/-- The clock after one more reading, which reads its `now`. -/
def read (c : Clock) : Clock :=
  match c.ticks with
  | [] => c
  | t :: ticks => ⟨c.now + t, ticks⟩

/-- `is_none_or(|d| d.passed())`: reads the clock if there is a deadline. -/
def passed (c : Clock) : Option Nat → Bool × Clock
  | none => (true, c)
  | some d => (d ≤ c.read.now, c.read)

/-- Splits a list into what has arrived and what has not, reading the clock for each element. -/
def partition {α : Type} (arrives : α → Option Nat) : Clock → List α → (List α × List α) × Clock
  | c, [] => (([], []), c)
  | c, a :: as =>
    let check := c.passed (arrives a)
    let split := partition arrives check.2 as
    if check.1 then ((a :: split.1.1, split.1.2), split.2)
    else ((split.1.1, a :: split.1.2), split.2)

theorem partition_perm {α : Type} (arrives : α → Option Nat) (c : Clock) (as : List α) :
    ((c.partition arrives as).1.1 ++ (c.partition arrives as).1.2).Perm as := by
  induction as generalizing c with
  | nil => exact .nil
  | cons a as ih =>
    have ih := ih (c.passed (arrives a)).2
    simp only [partition]
    split
    · exact ih.cons a
    · exact List.perm_middle.trans (ih.cons a)

theorem partition_of_still {α : Type} (arrives : α → Option Nat) {c : Clock} (hc : c.ticks = [])
    (as : List α) : c.partition arrives as = ((as.filter fun a => (arrives a).all (· ≤ c.now),
          as.filter fun a => !(arrives a).all (· ≤ c.now)), c) := by
  have hread : c.read = c := by simp only [read, hc]
  induction as with
  | nil => rfl
  | cons a as ih =>
    cases ha : arrives a with
    | none => simp [partition, passed, ha, ih]
    | some d => by_cases hd : d ≤ c.now <;> simp [partition, passed, ha, hread, ih, hd]

end Clock

/-! ## What a datagram costs -/

/-- A datagram's share of the receive buffer, given back when it is read. -/
structure Charge where
  mem : Nat
  cc : Nat

variable (len : Nat)

/-- The loop of `linux_truesize_fragmented` over the bytes still to send. -/
def fragmentsTruesize (v6 : Bool) (skb : Nat × Nat) (maxFragment rest : Nat) : Nat :=
  if _h : 0 < rest ∧ 0 < maxFragment then
    let fragment := min rest maxFragment
    let asDatagram := if v6 then fragment else fragment - 8
    linuxTruesize asDatagram v6 skb + fragmentsTruesize v6 skb maxFragment (rest - fragment)
  else 0
termination_by rest

def linuxTruesizeFragmented (v6 : Bool) (skb : Nat × Nat) (mtu : Option Nat) : Nat :=
  let ipHeader := if v6 then 40 + 8 else 20
  let unfragmented := (if v6 then 40 else 20) + 8 + len
  match mtu.filter fun m => m < unfragmented ∧ ipHeader + 8 < m with
  | none => linuxTruesize len v6 skb
  | some mtu => fragmentsTruesize v6 skb ((mtu - ipHeader) / 8 * 8) (8 + len)

def macRecord (seen : Bool) : Nat := len + 16 + if seen then 16 else 0

def macMbufs : Nat := if len ≤ 200 then 1536 else 3584

def sbEfficiency : Nat := 8

def mbufSlack : Nat := 448

/-- What a socket's receive queue holds against its buffer. -/
structure RxAccount where
  rmemAlloc : Nat
  queued : Nat
  queuedBytes : Nat
  cc : Nat
  seen : Bool

namespace RxAccount

def empty : RxAccount := ⟨0, 0, 0, 0, false⟩

def charge (host : Host) (a : RxAccount) (len : Nat) (v6 : Bool) (skb : Nat × Nat)
    (mtu : Option Nat) : Charge :=
  match host with
  | .linux => ⟨linuxTruesizeFragmented len v6 skb mtu, 0⟩
  | .macos => ⟨macMbufs len, macRecord len a.seen⟩

def fits (host : Host) (a : RxAccount) (rcvbuf : Int) (sbMax : Nat) (overshoot : Bool)
    (charge : Charge) : Bool :=
  let rcvbuf := rcvbuf.toNat
  match host with
  | .linux =>
    if overshoot then a.rmemAlloc ≤ rcvbuf
    else a.rmemAlloc = 0 ∨ a.rmemAlloc + charge.mem ≤ rcvbuf
  | .macos =>
    let mbmax := min (satMul rcvbuf sbEfficiency) sbMax
    charge.cc ≤ rcvbuf - a.cc ∧ a.rmemAlloc < satAdd mbmax mbufSlack

def take (a : RxAccount) (len : Nat) (charge : Charge) : RxAccount where
  rmemAlloc := a.rmemAlloc + charge.mem
  cc := a.cc + charge.cc
  queued := a.queued + 1
  queuedBytes := a.queuedBytes + len
  seen := true

/-- The subtractions saturate, as those on naturals do. -/
def giveBack (a : RxAccount) (len : Nat) (charge : Charge) : RxAccount :=
  { a with
    rmemAlloc := a.rmemAlloc - charge.mem
    cc := a.cc - charge.cc
    queued := a.queued - 1
    queuedBytes := a.queuedBytes - len }

end RxAccount

/-! ## The socket's buffers -/

/-- The limits a new socket's buffers are made from. -/
structure SysLimits where
  rmemDefault : Nat
  tcpRmemDefault : Nat
  rmemMax : Nat
  enforceRcvbuf : Bool
  udpRcvbufOvershoot : Bool
  skbSmallTruesize : Nat
  skbHeadOverhead : Nat

/-- The receive side of the per-socket buffer state. -/
structure SockBuf where
  rcvbuf : Int
  enforce : Bool
  enforceError : Bool
  errorMem : Nat
  sbMax : Nat
  overshoot : Bool
  skb : Nat × Nat
  rx : RxAccount
  overflowed : Nat
  wireLost : Nat
  drops : Nat
  rxqOvfl : Bool

namespace SockBuf

/-- `as_opt`: an `int` option value, saturating at `i32::MAX`. -/
def asOpt (v : Nat) : Int := min v (2 ^ 31 - 1)

def new (kind : SocketKind) (limits : SysLimits) : SockBuf where
  rcvbuf := asOpt (if kind = .tcpStream ∨ kind = .tcpListener then limits.tcpRmemDefault
    else limits.rmemDefault)
  enforce := limits.enforceRcvbuf && kind == .udp
  enforceError := limits.enforceRcvbuf
  errorMem := 0
  sbMax := limits.rmemMax
  overshoot := limits.udpRcvbufOvershoot
  skb := (limits.skbSmallTruesize, limits.skbHeadOverhead)
  rx := .empty
  overflowed := 0
  wireLost := 0
  drops := 0
  rxqOvfl := false

/-- Whether a datagram costing `charge` is turned away for a full buffer. -/
def full (host : Host) (b : SockBuf) (charge : Charge) : Bool :=
  b.enforce && !b.rx.fits host b.rcvbuf b.sbMax b.overshoot charge

/-- Admits a datagram, with its charge and the drop count to report, or counts an overflow. -/
def admitIn (host : Host) (b : SockBuf) (len : Nat) (v6 : Bool) (mtu : Option Nat) :
    SockBuf × Option (Charge × Nat) :=
  let charge := b.rx.charge host len v6 b.skb mtu
  if b.full host charge then
    ({ b with overflowed := b.overflowed + 1, drops := (b.drops + 1) % 2 ^ 32 }, none)
  else
    ({ b with rx := b.rx.take len charge }, some (charge, if b.rxqOvfl then b.drops else 0))

variable (b : SockBuf)

def consumed (len : Nat) (charge : Charge) : SockBuf :=
  { b with rx := b.rx.giveBack len charge }

def errorCharge (len : Nat) (v6 : Bool) : Nat := linuxTruesize len v6 b.skb

/-- `None` where the report is refused. -/
def admitError (charge : Nat) : Option SockBuf :=
  if b.enforceError ∧ b.rcvbuf.toNat ≤ satAdd b.rx.rmemAlloc charge then none
  else
    some { b with
      rx := { b.rx with rmemAlloc := b.rx.rmemAlloc + charge }
      errorMem := b.errorMem + charge }

def consumeError (charge : Nat) : SockBuf :=
  { b with
    rx := { b.rx with rmemAlloc := b.rx.rmemAlloc - charge }
    errorMem := b.errorMem - charge }

end SockBuf

/-! ## Error reports -/

/-- `ErrorOrder`: when a report was queued or arrives, then its number in the process. -/
structure ErrorOrder where
  instant : Nat
  number : Nat

/-- The derived `<`: by instant, then by number. -/
def ErrorOrder.before (a b : ErrorOrder) : Bool :=
  a.instant < b.instant ∨ a.instant = b.instant ∧ a.number < b.number

/-- An ICMP error or a transmit timestamp waiting on the error queue. -/
structure Report where
  order : ErrorOrder
  arrives : Option Nat
  charge : Nat
  charged : Bool

/-- `min_by_key(order)`: the first of the least. -/
def firstReport : List (Report × Nat) → Option (Report × Nat)
  | [] => none
  | r :: rs =>
    match firstReport rs with
    | none => some r
    | some best => if best.1.order.before r.1.order then some best else some r

theorem firstReport_mem {rs : List (Report × Nat)} {r : Report × Nat}
    (h : firstReport rs = some r) : r ∈ rs := by
  induction rs with
  | nil => cases h
  | cons r' rs ih =>
    simp only [firstReport] at h
    split at h
    · cases h
      exact List.mem_cons_self
    · split at h
      · exact List.mem_cons_of_mem _ (ih (by simp_all))
      · cases h
        exact List.mem_cons_self

/-- The next report to let in: arrived, not charged yet and queued by `limit`, with its index. -/
def pendingReport (reports : List Report) (limit : Option Nat) (c : Clock) :
    Option (Report × Nat) × Clock :=
  let uncharged := reports.zipIdx.filter fun r => !r.1.charged
  let split := c.partition (fun r => r.1.arrives) uncharged
  (firstReport (split.1.1.filter fun r => limit.all (r.1.order.instant ≤ ·)), split.2)

/-- The next report to read: the first charged one, with its index. -/
def nextReport (reports : List Report) : Option (Report × Nat) :=
  firstReport (reports.zipIdx.filter fun r => r.1.charged)

/-- Which queue a report waits on: `errq`, or `txq` of the timestamping state. -/
inductive ErrorSource where
  | icmp
  | tx

/-- The earlier of the first ICMP report and the first timestamp; the ICMP one if level. -/
def firstOf (icmp tx : Option (Report × Nat)) : Option (ErrorSource × Report × Nat) :=
  match tx, icmp with
  | some tx, none => some (.tx, tx)
  | some tx, some icmp =>
    if tx.1.order.before icmp.1.order then some (.tx, tx) else some (.icmp, icmp)
  | none, some icmp => some (.icmp, icmp)
  | none, none => none

/-! ## The socket's record -/

structure UdpMib where
  received : Nat
  read : Nat
  rcvbufErrors : Nat

structure ProtoStats where
  udp4 : UdpMib
  udp6 : UdpMib

/-- `is_v6`: an IPv6 address that is not a mapped IPv4 one. -/
def SocketAddr.isV6 (a : SocketAddr) : Bool := a.v6 && a.ip / 2 ^ 32 != 0xffff

def ProtoStats.udp (s : ProtoStats) (src : SocketAddr) (f : UdpMib → UdpMib) : ProtoStats :=
  if src.isV6 then { s with udp6 := f s.udp6 } else { s with udp4 := f s.udp4 }

/-- The part of a socket's record the receive path uses. -/
structure SockRec where
  kind : SocketKind
  peer : Option SocketAddr
  station : Bool
  buf : SockBuf
  errq : List Report
  txq : List Report
  delivered : Nat
  deliveredBytes : Nat
  stats : ProtoStats
  nextDataArrival : Nat

/-- What became of a datagram at the buffer. The source returns `None` for the last two. -/
inductive Admission where
  | admitted (charge : Charge) (drops : Nat)
  | refused
  | overflowed

namespace SockRec

variable (s : SockRec)

def reports : ErrorSource → List Report
  | .icmp => s.errq
  | .tx => s.txq

def setReports (reports : List Report) : ErrorSource → SockRec
  | .icmp => { s with errq := reports }
  | .tx => { s with txq := reports }

def uncharged : Nat :=
  s.errq.countP (fun r => !r.charged) + s.txq.countP (fun r => !r.charged)

/-- One round of `land_errors`: charges the report at `i`, or drops it if it does not fit. -/
def landReport (source : ErrorSource) (r : Report) (i : Nat) : SockRec :=
  match s.buf.admitError r.charge with
  | some buf =>
    { s with buf }.setReports ((s.reports source).set i { r with charged := true }) source
  | none => s.setReports ((s.reports source).eraseIdx i) source

/-- The report `land_errors` takes next, and the clock after looking for it. -/
def pending (limit : Option Nat) (c : Clock) :
    Option (ErrorSource × Report × Nat) × Clock :=
  let icmp := pendingReport s.errq limit c
  let tx := pendingReport s.txq limit icmp.2
  (firstOf icmp.1 tx.1, tx.2)

end SockRec

variable {limit : Option Nat} {reports : List Report}

theorem mem_of_pendingReport {c : Clock} {r : Report}
    {i : Nat} (h : (pendingReport reports limit c).1 = some (r, i)) :
    reports[i]? = some r ∧ r.charged = false := by
  have hmem := (List.mem_filter.mp (firstReport_mem h)).1
  have hmem := (Clock.partition_perm _ c _).mem_iff.mp (List.mem_append_left _ hmem)
  obtain ⟨hidx, huncharged⟩ := List.mem_filter.mp hmem
  exact ⟨List.mem_zipIdx_iff_getElem?.mp hidx, by simpa using huncharged⟩

theorem mem_of_nextReport {r : Report} {i : Nat}
    (h : nextReport reports = some (r, i)) : reports[i]? = some r ∧ r.charged = true := by
  obtain ⟨hidx, hcharged⟩ := List.mem_filter.mp (firstReport_mem h)
  exact ⟨List.mem_zipIdx_iff_getElem?.mp hidx, hcharged⟩

variable {source : ErrorSource}

theorem firstOf_eq_some {icmp tx : Option (Report × Nat)} {r : Report × Nat}
    (h : firstOf icmp tx = some (source, r)) :
    (source = .icmp ∧ icmp = some r) ∨ (source = .tx ∧ tx = some r) := by
  unfold firstOf at h
  split at h
  · cases h
    exact .inr ⟨rfl, rfl⟩
  · split at h
    · cases h
      exact .inr ⟨rfl, rfl⟩
    · cases h
      exact .inl ⟨rfl, rfl⟩
  · cases h
    exact .inl ⟨rfl, rfl⟩
  · cases h

namespace SockRec

variable {s : SockRec} {r : Report} {i : Nat}

theorem mem_of_pending {c : Clock} (h : (s.pending limit c).1 = some (source, r, i)) :
    (s.reports source)[i]? = some r ∧ r.charged = false := by
  rcases firstOf_eq_some h with ⟨rfl, hicmp⟩ | ⟨rfl, htx⟩
  · exact mem_of_pendingReport hicmp
  · exact mem_of_pendingReport htx

theorem countP_set_charged
    (h : reports[i]? = some r) (hr : r.charged = false) :
    (reports.set i { r with charged := true }).countP (fun r => !r.charged)
      < reports.countP fun r => !r.charged := by
  obtain ⟨hi, rfl⟩ := List.getElem?_eq_some_iff.mp h
  have hpos : 0 < reports.countP fun r => !r.charged :=
    List.countP_pos_iff.mpr ⟨_, List.getElem_mem hi, by simp [hr]⟩
  rw [List.countP_set hi]
  simp only [hr, Bool.not_false, if_true, Bool.not_true, Bool.false_eq_true, if_false]
  omega

theorem countP_eraseIdx_lt
    (h : reports[i]? = some r) (hr : r.charged = false) :
    (reports.eraseIdx i).countP (fun r => !r.charged) < reports.countP fun r => !r.charged := by
  obtain ⟨hi, rfl⟩ := List.getElem?_eq_some_iff.mp h
  have hperm := List.getElem_cons_eraseIdx_perm hi
  rw [← hperm.countP_eq, List.countP_cons_of_pos (by simp [hr])]
  exact Nat.lt_succ_self _

theorem uncharged_landReport_lt
    (h : (s.reports source)[i]? = some r) (hr : r.charged = false) :
    (s.landReport source r i).uncharged < s.uncharged := by
  have hset := countP_set_charged h hr
  have herase := countP_eraseIdx_lt h hr
  unfold landReport
  split <;> cases source <;> simp only [reports, setReports, uncharged] at * <;> omega

/-- `land_errors`: admits the arrived reports queued by `limit`, earliest first. -/
def landErrors (limit : Option Nat) (s : SockRec) (c : Clock) : SockRec × Clock :=
  match _h : s.pending limit c with
  | (none, c') => (s, c')
  | (some (source, r, i), c') => landErrors limit (s.landReport source r i) c'
termination_by s.uncharged
decreasing_by
  have hmem := mem_of_pending (s := s) (c := c) (by rw [_h])
  exact uncharged_landReport_lt hmem.1 hmem.2

theorem landErrors_induct {P : SockRec → Prop} {c : Clock}
    (hround : ∀ s source r i, (s.reports source)[i]? = some r → r.charged = false → P s →
      P (s.landReport source r i)) (hs : P s) : P (landErrors limit s c).1 := by
  fun_induction landErrors limit s c with
  | case1 s c c' h => exact hs
  | case2 s c source r i c' h ih =>
    have hmem := mem_of_pending (s := s) (c := c) (by rw [h])
    exact ih (hround s source r i hmem.1 hmem.2 hs)

end SockRec

namespace SockRec

variable (host : Host) (s : SockRec) (c : Clock)

/-- `state`: locks the record and, on Linux, admits the reports that came before the next datagram
in flight. -/
def access : SockRec × Clock :=
  match host with
  | .linux =>
    if s.nextDataArrival = u64Max then landErrors none s c
    else if s.nextDataArrival ≠ 0 then landErrors (some (s.nextDataArrival - 1)) s c
    else (s, c)
  | .macos => (s, c)

def setDataArrival (arrives : Option Nat) : SockRec :=
  { s with nextDataArrival := arrives.elim u64Max fun d => min d (u64Max - 1) }

def noteDataArrival (arrives : Nat) : SockRec :=
  { s with nextDataArrival := min s.nextDataArrival (min arrives (u64Max - 1)) }

/-- Changes the UDP counters of `src`'s family, unless the socket is not UDP or a station's. -/
def countUdp (src : SocketAddr) (f : UdpMib → UdpMib) : SockRec :=
  if s.kind = .udp ∧ s.station = false then { s with stats := s.stats.udp src f } else s

/-- The part of `admit` after the reports have landed. -/
def admitLanded (len : Nat) (src : SocketAddr) (mtu : Option Nat) :
    SockRec × Admission :=
  if s.kind = .udp ∧ s.peer.any (· ≠ src) then (s, .refused)
  else
    match s.buf.admitIn host len src.v6 mtu with
    | (buf, some (charge, drops)) =>
      ({ s with
          buf
          delivered := s.delivered + 1
          deliveredBytes := s.deliveredBytes + len }.countUdp src fun m =>
        { m with received := m.received + 1 }, .admitted charge drops)
    | (buf, none) =>
      ({ s with buf }.countUdp src fun m => { m with rcvbufErrors := m.rcvbufErrors + 1 },
        .overflowed)

/-- Lands the reports that came before the datagram, then takes it into the buffer if it fits. -/
def admitIn (len : Nat) (src : SocketAddr)
    (mtu arrives : Option Nat) : (SockRec × Admission) × Clock :=
  match host with
  | .linux =>
    let landed := landErrors arrives s c
    (landed.1.admitLanded host len src mtu, landed.2)
  | .macos => (s.admitLanded host len src mtu, c)

def consumed (s : SockRec) (c : Clock) (len : Nat) (charge : Charge)
    (src : SocketAddr) : SockRec × Clock :=
  let accessed := s.access host c
  let s := { accessed.1 with buf := accessed.1.buf.consumed len charge }
  (s.countUdp src fun m => { m with read := m.read + 1 }, accessed.2)

def countWireLost : SockRec × Clock :=
  let accessed := s.access host c
  ({ accessed.1 with buf := { accessed.1.buf with wireLost := accessed.1.buf.wireLost + 1 } },
    accessed.2)

/-- `pop_error_report`: takes the earliest charged report, giving its charge back. -/
def popErrorReport :
    (SockRec × Option (ErrorSource × Report)) × Clock :=
  let accessed := s.access host c
  let s := accessed.1
  match firstOf (nextReport s.errq) (nextReport s.txq) with
  | none => ((s, none), accessed.2)
  | some (source, r, i) =>
    let s := s.setReports ((s.reports source).eraseIdx i) source
    (({ s with buf := s.buf.consumeError r.charge }, some (source, r)), accessed.2)

/-- Queues a report on `source`, readable once `arrives` has passed; one that arrives at once is
ordered by the time it is queued. -/
def queueReport (source : ErrorSource)
    (arrives : Option Nat) (number : Nat) (charge : SockBuf → Nat) : SockRec × Clock :=
  let accessed := s.access host c
  let s := accessed.1
  let c := if arrives.isNone then accessed.2.read else accessed.2
  let r : Report := ⟨⟨arrives.getD c.now, number⟩, arrives, charge s.buf, false⟩
  (s.setReports (s.reports source ++ [r]) source, c)

/-- `queue_icmp_report`, for an error that quotes `len` bytes of payload. -/
def queueIcmpReport (v6 : Bool) (len : Nat)
    (arrives : Option Nat) (number : Nat) : SockRec × Clock :=
  let quoted := min len (if v6 then 1184 else 520)
  s.queueReport host c .icmp arrives number fun buf =>
    buf.errorCharge (quoted + if v6 then 48 else 28) v6

end SockRec

/-! ## The receive queue -/

abbrev Links := Nat → List Nat

/-- `LinkState::lost_in_flight`: sent after `epoch` losses of the link, it met another before its
arrival. -/
def Links.lostInFlight (links : Links) (link epoch arrival : Nat) : Bool :=
  ((links link).drop epoch).any (· < arrival)

/-- A datagram a receive queue can hold. -/
class Arrival (D : Type) where
  src : D → SocketAddr
  payload : D → Nat
  arrives : D → Option Nat
  lost : Links → D → Bool
  pathMtu : D → Option Nat

/-- A datagram of the fabric: `via` is the link it crosses and that link's losses at sending. -/
structure Datagram where
  src : SocketAddr
  data : List UInt8
  arrives : Option Nat
  via : Option (Nat × Nat)
  mtu : Option Nat

instance : Arrival Datagram where
  src d := d.src
  payload d := d.data.length
  arrives d := d.arrives
  lost links d :=
    match d.via, d.arrives with
    | some (link, epoch), some arrives => links.lostInFlight link epoch arrives
    | _, _ => false
  pathMtu d := d.mtu

/-- A landed datagram with what it was charged and the drop count to report with it. -/
structure Queued (D : Type) where
  dg : D
  charge : Charge
  drops : Nat

/-- Where a datagram went that is neither in flight nor queued. -/
inductive Fate where
  | popped
  | lost
  | refused
  | dropped
  deriving DecidableEq

structure RxQueue (D : Type) where
  inFlight : List (Nat × D)
  rx : List (Queued D)
  seq : Nat
  landed : Nat
  /-- Every datagram that became readable, in that order. -/
  arrivals : List D
  /-- Every datagram that left the queue, with where it went. -/
  gone : List (Fate × D)

namespace RxQueue

variable {D : Type}

def empty (D : Type) : RxQueue D := ⟨[], [], 0, 0, [], []⟩

variable (q : RxQueue D)

def enqueued (dg : D) (charge : Charge) (drops : Nat) : RxQueue D :=
  { q with
    rx := q.rx ++ [⟨dg, charge, drops⟩]
    landed := q.landed + 1
    arrivals := q.arrivals ++ [dg] }

/-- `dg` takes its place in the receive buffer if it was admitted, and is gone otherwise. -/
def settle (dg : D) : Admission → RxQueue D
  | .admitted charge drops => q.enqueued dg charge drops
  | .refused => { q with gone := q.gone ++ [(.refused, dg)] }
  | .overflowed => { q with gone := q.gone ++ [(.dropped, dg)] }

end RxQueue

/-- The order datagrams land in: by arrival, one with no deadline first, then by number. -/
def landsBefore {D : Type} [Arrival D] (a b : Nat × D) : Bool :=
  match Arrival.arrives a.2, Arrival.arrives b.2 with
  | none, none => a.1 ≤ b.1
  | none, some _ => true
  | some _, none => false
  | some x, some y => x < y ∨ x = y ∧ a.1 ≤ b.1

def LandsBefore {D : Type} [Arrival D] (a b : Nat × D) : Prop := landsBefore a b = true

instance {D : Type} [Arrival D] : DecidableRel (LandsBefore (D := D)) :=
  fun a b => inferInstanceAs (Decidable (landsBefore a b = true))

/-- A queue, its socket's record (`none` for a tester's endpoint) and the clock it is read on. -/
structure RxPath (D : Type) where
  queue : RxQueue D
  sock : Option SockRec
  clock : Clock

namespace RxPath

variable {D : Type} [Arrival D] (host : Host) (links : Links) (p : RxPath D)

/-- Lands `dg` if the record's buffer admits it. -/
def enqueue (dg : D) : RxPath D :=
  match p.sock with
  | none => { p with queue := p.queue.enqueued dg ⟨0, 0⟩ 0 }
  | some s =>
    let admitted := s.admitIn host p.clock (Arrival.payload dg) (Arrival.src dg)
      (Arrival.pathMtu dg) (Arrival.arrives dg)
    { queue := p.queue.settle dg admitted.1.2, sock := some admitted.1.1, clock := admitted.2 }

/-- `track_arrival`: tells the record when the next datagram in flight arrives. -/
def trackArrival : RxPath D :=
  match host with
  | .linux =>
    let next := (p.queue.inFlight.filterMap fun f => Arrival.arrives f.2).min?
    { p with sock := p.sock.map (·.setDataArrival next) }
  | .macos => p

/-- Takes what has arrived out of flight; what its link lost is gone, the rest is due. -/
def takeDue : RxPath D × List (Nat × D) :=
  let split := p.clock.partition (fun f => Arrival.arrives f.2) p.queue.inFlight
  let lost := split.1.1.filter fun f => Arrival.lost links f.2
  let queue := { p.queue with
    inFlight := split.1.2
    gone := p.queue.gone ++ lost.map fun f => (.lost, f.2) }
  ({ p with queue, clock := split.2 }, split.1.1.filter fun f => !Arrival.lost links f.2)

/-- `land`: moves everything that has arrived into the receive buffer, in arrival order. -/
def land : RxPath D :=
  if p.queue.inFlight.isEmpty then p
  else
    let taken := p.takeDue links
    let due := taken.2.insertionSort LandsBefore
    (due.foldl (fun p f => p.enqueue host f.2) taken.1).trackArrival host

/-- Puts `dg` on the wire: in flight until it arrives, or landed after everything already due. -/
def push (dg : D) : RxPath D :=
  let queue := { p.queue with seq := p.queue.seq + 1 }
  match Arrival.arrives dg with
  | some arrives =>
    let queue := { queue with inFlight := queue.inFlight ++ [(queue.seq, dg)] }
    match host with
    | .linux => { p with queue, sock := p.sock.map (·.noteDataArrival arrives) }
    | .macos => { p with queue }
  | none => ({ p with queue }.land host links).enqueue host dg

/-- `pop_landed`: takes the oldest landed datagram whose source passes `accept`. -/
def popLanded (accept : SocketAddr → Bool) : RxPath D × Option (D × Nat) :=
  match p.queue.rx.findIdx? fun r => accept (Arrival.src r.dg) with
  | none => (p, none)
  | some i =>
    match p.queue.rx[i]? with
    | none => (p, none)
    | some r =>
      let queue := { p.queue with
        rx := p.queue.rx.eraseIdx i
        gone := p.queue.gone ++ [(.popped, r.dg)] }
      match p.sock with
      | none => ({ p with queue }, some (r.dg, r.drops))
      | some s =>
        let given := s.consumed host p.clock (Arrival.payload r.dg) r.charge (Arrival.src r.dg)
        ({ queue, sock := some given.1, clock := given.2 }, some (r.dg, r.drops))

def pop (accept : SocketAddr → Bool) : RxPath D × Option (D × Nat) :=
  (p.land host links).popLanded host accept

def peekLanded (accept : SocketAddr → Bool) : Option (D × Nat) :=
  (p.queue.rx.find? fun r => accept (Arrival.src r.dg)).map fun r => (r.dg, r.drops)

/-- `peek`, and `first_matching`, which returns the datagram in place. -/
def peek (accept : SocketAddr → Bool) : RxPath D × Option (D × Nat) :=
  let p := p.land host links
  (p, p.peekLanded accept)

def has (accept : SocketAddr → Bool) : RxPath D × Bool :=
  let p := p.land host links
  (p, p.queue.rx.any fun r => accept (Arrival.src r.dg))

def nextLen : RxPath D × Option Nat :=
  let p := p.land host links
  (p, p.queue.rx.head?.map fun r => Arrival.payload r.dg)

def landed : RxPath D × Nat :=
  let p := p.land host links
  (p, p.queue.landed)

end RxPath

end Snare.Net
