import Snare.Lib.U64

/-!
# The transport of a TCP direction

`TcpTransport` holds the bytes a writer handed over and the receive window has no room for yet. It
cuts them into segments (`next`), lets a write that fits a segment and the window through at once
(`direct`), and follows the receiver's window as segments arrive and bytes are read (`arrive`,
`advertise`). Counters and sizes are naturals; the operations that saturate in the source do, and
the product of the buffer's room and the payload's share wraps as there.

The queue of pending chunks is a `Backlog`, which carries the fact that its offset lies within the
front chunk. `Backlog.bytes` is what it still has to send, and **`Backlog.take_spec`** says that the
copy loop takes exactly the first bytes of that. **`next_spec`** and **`next_eq_none`** are what the
pipe's transmit loop needs.
-/

namespace Snare.Stream

open List

/-! ## The queue of pending chunks -/

/-- Chunks to send, oldest first; the front one has been sent up to `offset`. -/
structure Backlog where
  pending : List (List UInt8)
  offset : Nat
  inside : offset ≤ (pending.headD []).length
  deriving DecidableEq

namespace Backlog

def empty : Backlog := ⟨[], 0, Nat.le_refl 0⟩

variable (q : Backlog)

def bytes : List UInt8 := q.pending.flatten.drop q.offset

def pendingBytes : Nat := (q.pending.map List.length).sum - q.offset

def push (bytes : List UInt8) : Backlog where
  pending := q.pending ++ [bytes]
  offset := q.offset
  inside := by
    have hinside := q.inside
    cases hpending : q.pending with
    | nil => simp_all
    | cons front rest => simpa [hpending] using hinside

/-- The loop of `next` that copies `n` bytes out of the front chunks: the bytes, the chunks left and
the offset into the first of them. -/
def copy : List (List UInt8) → Nat → Nat → List UInt8 × List (List UInt8) × Nat
  | [], _, _ => ([], [], 0)
  | front :: rest, offset, n =>
    if n = 0 then ([], front :: rest, offset)
    else
      let take := min n (front.length - offset)
      let copied := (front.drop offset).take take
      if offset + take = front.length then
        let (bytes, pending, offset) := copy rest 0 (n - take)
        (copied ++ bytes, pending, offset)
      else
        -- the chunk outlasts the segment: `take` was all of `n`
        (copied, front :: rest, offset + take)

theorem copy_spec (pending : List (List UInt8)) (offset n : Nat)
    (hinside : offset ≤ (pending.headD []).length) :
    (copy pending offset n).1 = (pending.flatten.drop offset).take n
      ∧ (copy pending offset n).2.1.flatten.drop (copy pending offset n).2.2
          = (pending.flatten.drop offset).drop n
      ∧ (copy pending offset n).2.2 ≤ ((copy pending offset n).2.1.headD []).length := by
  induction pending generalizing offset n with
  | nil => simp [copy]
  | cons front rest ih =>
    simp only [headD_cons] at hinside
    have hdrop : (front :: rest).flatten.drop offset = front.drop offset ++ rest.flatten := by
      rw [flatten_cons, drop_append_of_le_length hinside]
    simp only [copy]
    split
    · -- nothing left to copy
      next hn => simp [hn, hinside]
    · next hn =>
      split
      · -- the front chunk is used up and popped
        next hend =>
        have htake : min n (front.length - offset) = front.length - offset := by omega
        obtain ⟨hbytes, hrest, hwithin⟩ := ih 0 (n - (front.length - offset)) (Nat.zero_le _)
        rw [htake]
        simp only [hbytes, drop_zero]
        refine ⟨?_, ?_, hwithin⟩
        · rw [hdrop, take_append, length_drop,
            take_of_length_le (i := n) (by rw [length_drop]; omega),
            take_of_length_le (by rw [length_drop])]
        · have hgone : (front.drop offset).drop n = [] :=
            drop_of_length_le (by rw [length_drop]; omega)
          rw [hrest, hdrop, drop_append, length_drop, hgone, drop_zero,
            nil_append]
      · next hend =>
        have htake : min n (front.length - offset) = n := by omega
        rw [htake]
        refine ⟨?_, ?_, ?_⟩
        · rw [hdrop, take_append_of_le_length (by rw [length_drop]; omega)]
        · rw [drop_drop, Nat.add_comm]
        · simp only [headD_cons]
          omega

def take (n : Nat) : List UInt8 × Backlog :=
  ((copy q.pending q.offset n).1, ⟨(copy q.pending q.offset n).2.1, (copy q.pending q.offset n).2.2,
      (copy_spec q.pending q.offset n q.inside).2.2⟩)

/-- **What the copy loop does.** It takes the first `n` bytes still to send and leaves the rest. -/
theorem take_spec (n : Nat) :
    (q.take n).1 = q.bytes.take n ∧ (q.take n).2.bytes = q.bytes.drop n :=
  ⟨(copy_spec q.pending q.offset n q.inside).1, (copy_spec q.pending q.offset n q.inside).2.1⟩

theorem offset_le : q.offset ≤ q.pending.flatten.length := by
  have hinside := q.inside
  cases hpending : q.pending with
  | nil => simpa [hpending] using hinside
  | cons front rest =>
    rw [hpending] at hinside
    simp only [headD_cons] at hinside
    simp only [flatten_cons, length_append]
    omega

theorem pendingBytes_eq : q.pendingBytes = q.bytes.length := by
  simp only [pendingBytes, bytes, length_drop, length_flatten]

theorem bytes_push (bytes : List UInt8) : (q.push bytes).bytes = q.bytes ++ bytes := by
  simp only [Backlog.bytes, push, flatten_append, flatten_cons, flatten_nil,
    append_nil]
  exact drop_append_of_le_length q.offset_le

theorem bytes_of_pending_nil {q : Backlog} (h : q.pending = []) : q.bytes = [] := by
  simp [bytes, h]

end Backlog

/-! ## The transport -/

structure Segment where
  bytes : List UInt8
  mss : Nat

structure TcpTransport extends Backlog where
  written : Nat
  transmitted : Nat
  received : Nat
  windowEnd : Nat
  advertised : Nat
  maxWindow : Nat
  buffer : Nat
  ratio : Nat
  threshold : Nat
  clamp : Nat
  receiveMss : Nat
  advmss : Nat
  initialMss : Nat
  initialGoal : Nat
  initialPushes : Nat
  scale : Nat
  gsoMax : Nat
  cwnd : Nat
  advmss_pos : 0 < advmss
  initialMss_pos : 0 < initialMss
  initialGoal_pos : 0 < initialGoal
  deriving DecidableEq

/-- The loop of `new` that doubles the window scale until the window fits sixteen bits. -/
def windowScale (buffer scale : Nat) : Nat :=
  if buffer / 2 / scale > 65535 ∧ scale < 128 then windowScale buffer (scale * 2) else scale
termination_by 128 - scale
decreasing_by
  have hscale : scale ≠ 0 := by
    rintro rfl
    simp_all
  omega

/-- The first window `new` advertises: whole segments, once one fits. -/
def firstWindow (space advmss : Nat) : Nat :=
  min (if space > advmss then space / advmss * advmss else space) 65535

def firstMss (advmss advertised : Nat) : Nat := min advmss (max (advertised / 2) 1)

/-- The size of the first pushes: whole segments within half the window, but at least one. -/
def firstGoal (initialMss gsoMax advertised : Nat) : Nat :=
  initialMss * max (min gsoMax (advertised / 2) / initialMss) 1

namespace TcpTransport

def new (buffer mtu : Nat) (v6 : Bool) (gsoSize : Nat) : TcpTransport :=
  let header := if v6 then 72 else 52
  let advmss := max (min mtu 65535 - header) 1
  let gsoMax := max (gsoSize - header) advmss
  let space := buffer / 2
  let advertised := firstWindow space advmss
  let initialMss := firstMss advmss advertised
  let initialGoal := firstGoal initialMss gsoMax advertised
  have advmss_pos : 0 < advmss := Nat.lt_of_lt_of_le Nat.one_pos (Nat.le_max_right _ _)
  have initialMss_pos : 0 < initialMss := by
    simp only [initialMss, firstMss]
    omega
  { Backlog.empty with
    written := 0
    transmitted := 0
    received := 0
    windowEnd := advertised
    advertised
    maxWindow := advertised
    buffer
    ratio := 128
    threshold := space
    clamp := space
    receiveMss := min initialGoal 536
    advmss
    initialMss
    initialGoal
    initialPushes := 2
    scale := windowScale buffer 1
    gsoMax
    cwnd := 10
    advmss_pos
    initialMss_pos
    initialGoal_pos := Nat.mul_pos initialMss_pos (by omega) }

variable (t : TcpTransport)

def push (bytes : List UInt8) : TcpTransport :=
  { t with toBacklog := t.toBacklog.push bytes, written := t.written + bytes.length }

/-- The segment size: the path's, and at most half of the widest window seen. -/
def mss : Nat := min t.advmss (max (t.maxWindow / 2) 1)

def direct (len : Nat) : Option (TcpTransport × Nat) :=
  if t.pending ≠ [] ∨ len > t.mss ∨ len > t.windowEnd - t.transmitted then none
  else some ({ t with written := t.written + len, transmitted := t.transmitted + len }, t.mss)

def initial : Bool := t.initialPushes > 0 && t.pendingBytes > t.initialGoal

/-- How many bytes `next` would send with the window open and enough bytes pending. -/
def goal : Nat :=
  if t.initial then t.initialGoal
  else t.mss * min (max (t.gsoMax / t.mss) 1) (max (t.cwnd / 2) 1)

def packetMss : Nat := if t.initial then t.initialMss else t.mss

def segmentLen : Nat :=
  min (min (min t.goal (t.packetMss * max (t.cwnd / 2) 1)) (t.windowEnd - t.transmitted))
    t.pendingBytes

def next : Option (TcpTransport × Segment) :=
  if t.windowEnd - t.transmitted = 0 then none
  else if t.pendingBytes = 0 then none
  else
    let n := t.segmentLen
    let (bytes, backlog) := t.toBacklog.take n
    some ({ t with
      toBacklog := backlog
      initialPushes := if t.initial then t.initialPushes - 1 else t.initialPushes
      transmitted := t.transmitted + n }, ⟨bytes, t.packetMss⟩)

def allowed : Nat := satMul t.buffer t.ratio / 256

def full : Nat := min t.clamp t.allowed

def windowMss : Nat := max (min t.receiveMss t.full) 1

/-- The room to advertise with `memory` charged: none while little is free, and at most the
threshold. -/
def freeRoom (memory : Nat) : Nat :=
  let free := wrapMul (t.buffer - memory) t.ratio / 256
  let free := if free < t.full / 2 ∧ (free < t.allowed / 16 ∨ free < t.windowMss) then 0 else free
  min free t.threshold

/-- The room as a window: in units of the scale, or in whole segments. -/
def window (memory : Nat) : Nat :=
  let free := t.freeRoom memory
  if t.scale > 1 then (free + t.scale - 1) / t.scale * t.scale
  else if t.advertised > free ∨ t.advertised ≤ free - t.windowMss then
    free / t.windowMss * t.windowMss
  else t.advertised

def advertise (memory : Nat) : TcpTransport :=
  let end_ := t.received + t.window memory
  let windowEnd :=
    if end_ - t.windowEnd ≥ max (min t.windowMss (t.allowed / 2)) 1 then end_ else t.windowEnd
  let advertised := windowEnd - t.received
  { t with windowEnd, advertised, maxWindow := max t.maxWindow advertised }

/-- The first part of `arrive`: a segment as large as any before sets the receive segment size, and
a larger one the share of the buffer for payload. -/
def measure (len mss head : Nat) : TcpTransport :=
  let measured := min len mss
  if measured ≥ t.receiveMss then
    let t :=
      if measured ≠ t.receiveMss then
        let ratio := max (satMul len 256 / (len + head)) 1
        { t with ratio, clamp := satMul t.buffer ratio / 256 }
      else t
    { t with receiveMss := min measured t.advmss }
  else t

/-- The second part of `arrive`: a full segment widens the window's bound. -/
def widen (len memory : Nat) : TcpTransport :=
  if len ≥ 128 then
    let free := wrapMul (t.buffer - memory) t.ratio / 256
    let room := min t.clamp free - t.threshold
    { t with threshold := t.threshold + min room (max (2 * t.advmss) (2 * len)) }
  else t

variable (len mss memory head : Nat)

def arrive : TcpTransport :=
  let now := (t.measure len mss head).widen len memory
  let now := { now with received := now.received + len }
  if now.receiveMss ≠ t.receiveMss ∨ now.threshold ≠ t.threshold then now.advertise memory
  else { now with advertised := now.windowEnd - now.received }

theorem arrive_frame : (t.arrive len mss memory head).toBacklog = t.toBacklog ∧
    (t.arrive len mss memory head).written = t.written := by
  have hmeasure : (t.measure len mss head).toBacklog = t.toBacklog ∧
      (t.measure len mss head).written = t.written := by
    unfold measure
    dsimp only
    split
    · split <;> exact ⟨rfl, rfl⟩
    · exact ⟨rfl, rfl⟩
  have hwiden : ∀ t : TcpTransport, (t.widen len memory).toBacklog = t.toBacklog ∧
      (t.widen len memory).written = t.written := by
    intro t
    unfold widen
    split <;> exact ⟨rfl, rfl⟩
  rw [← hmeasure.1, ← hmeasure.2]
  unfold arrive
  dsimp only
  split <;> exact hwiden _

/-! ## What a segment takes -/

theorem mss_pos : 0 < t.mss := by
  have := t.advmss_pos
  simp only [mss]
  omega

theorem packetMss_pos : 0 < t.packetMss := by
  unfold packetMss
  split
  · exact t.initialMss_pos
  · exact t.mss_pos

theorem goal_pos : 0 < t.goal := by
  unfold goal
  split
  · exact t.initialGoal_pos
  · exact Nat.mul_pos t.mss_pos (by omega)

theorem segmentLen_pos (hopen : t.transmitted < t.windowEnd)
    (hpending : t.bytes ≠ []) : 0 < t.segmentLen := by
  have hbytes : 0 < t.pendingBytes := by
    rw [t.pendingBytes_eq]
    exact length_pos_iff.mpr hpending
  have hcwnd : 0 < t.packetMss * max (t.cwnd / 2) 1 := Nat.mul_pos t.packetMss_pos (by omega)
  have hgoal := t.goal_pos
  simp only [segmentLen]
  omega

theorem direct_spec {t t' : TcpTransport} {len mss : Nat} (h : t.direct len = some (t', mss)) :
    t.bytes = [] ∧ len ≤ t.windowEnd - t.transmitted ∧ mss = t.mss
      ∧ t' = { t with written := t.written + len, transmitted := t.transmitted + len } := by
  unfold direct at h
  split at h
  · exact absurd h nofun
  · next hfits =>
    push Not at hfits
    simp only [Option.some.injEq, Prod.mk.injEq] at h
    exact ⟨Backlog.bytes_of_pending_nil hfits.1, hfits.2.2, h.2.symm, h.1.symm⟩

theorem next_eq_none {t : TcpTransport} :
    t.next = none ↔ t.windowEnd ≤ t.transmitted ∨ t.bytes = [] := by
  have hbytes : t.pendingBytes = 0 ↔ t.bytes = [] := by
    rw [t.pendingBytes_eq, length_eq_zero_iff]
  simp only [next, hbytes, Nat.sub_eq_zero_iff_le]
  split
  · simp_all
  · next hopen =>
    split <;> simp_all

/-- **What `next` does.** The segment is a nonempty front part of the pending bytes, counts as
transmitted, and stays within the window; but for the count of initial pushes nothing else changes.
-/
theorem next_spec {t t' : TcpTransport} {seg : Segment} (h : t.next = some (t', seg)) :
    seg.bytes ≠ [] ∧ seg.bytes ++ t'.bytes = t.bytes ∧ seg.mss = t.packetMss
      ∧ t'.transmitted = t.transmitted + seg.bytes.length
      ∧ ∃ backlog pushes, t' = { t with
          toBacklog := backlog, initialPushes := pushes, transmitted := t'.transmitted } := by
  have hsome : ¬ (t.windowEnd ≤ t.transmitted ∨ t.bytes = []) := by
    rw [← next_eq_none, h]
    exact nofun
  push Not at hsome
  obtain ⟨htake, hdrop⟩ := t.toBacklog.take_spec t.segmentLen
  have hlen : (t.bytes.take t.segmentLen).length = t.segmentLen := by
    rw [length_take, ← t.pendingBytes_eq]
    simp only [segmentLen]
    omega
  have hpos := t.segmentLen_pos hsome.1 hsome.2
  unfold next at h
  split at h
  · exact absurd h nofun
  split at h
  · exact absurd h nofun
  · simp only [Option.some.injEq, Prod.mk.injEq] at h
    obtain ⟨rfl, rfl⟩ := h
    refine ⟨?_, ?_, rfl, ?_, _, _, rfl⟩
    · show (t.toBacklog.take t.segmentLen).1 ≠ []
      rw [htake]
      intro hnil
      rw [hnil, length_nil] at hlen
      omega
    · rw [htake, hdrop, take_append_drop]
    · rw [htake, hlen]

theorem next_window {t t' : TcpTransport} {seg : Segment} (h : t.next = some (t', seg)) :
    t'.transmitted ≤ t'.windowEnd := by
  have hlen : t.segmentLen ≤ t.windowEnd - t.transmitted := by
    simp only [segmentLen]
    omega
  unfold next at h
  split at h
  · exact absurd h nofun
  split at h
  · exact absurd h nofun
  · obtain ⟨rfl, -⟩ := h
    show t.transmitted + t.segmentLen ≤ t.windowEnd
    omega

end TcpTransport

end Snare.Stream
