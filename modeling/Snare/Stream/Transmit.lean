import Snare.Lib.Runs
import Snare.Stream.Window

/-!
# Flow control of a transport

A transport on its own: bytes are pushed or written direct, segments are cut and arrive, windows are
advertised, in any order and with any sizes. `Sending` keeps beside it what was written, what was
put out and what has not arrived yet.

* **`Sending.Flow`**: what was put out is a front part of what was written; the counters are the
  lengths of both, never past the window; and a segment is cut whenever the window is open.
* **`Sending.flow_kept`**: every run from a new transport keeps it, and the window's end never
  moves back.
* **`Sending.window_reopens`**: a shut window opens again once the receiver's memory is free.
-/

namespace Snare.Stream

open List
open TcpTransport (Fits direct_spec next_counters next_spec)

structure Sending where
  transport : TcpTransport
  /-- The bytes written, pushed and direct ones. -/
  input : List UInt8
  /-- The direct writes and the segments, in order. -/
  output : List (List UInt8)
  /-- The pieces of `output` that may still arrive: length and segment size, oldest first. -/
  flying : List (Nat × Nat)

inductive Sending.Op where
  | push (bytes : List UInt8)
  /-- Writes `bytes` direct, which the transport may decline. -/
  | direct (bytes : List UInt8)
  | next
  /-- The oldest piece arrives after `skip` others that never do. -/
  | arrive (skip memory head : Nat)
  | advertise (memory : Nat)

namespace Sending

def new (buffer mtu : Nat) (v6 : Bool) (gsoSize : Nat) : Sending :=
  ⟨.new buffer mtu v6 gsoSize, [], [], []⟩

def step (s : Sending) : Op → Sending
  | .push bytes => { s with transport := s.transport.push bytes, input := s.input ++ bytes }
  | .direct bytes =>
    match s.transport.direct bytes.length with
    | none => s
    | some (transport, mss) =>
      { transport
        input := s.input ++ bytes
        output := s.output ++ [bytes]
        flying := s.flying ++ [(bytes.length, mss)] }
  | .next =>
    match s.transport.next with
    | none => s
    | some (transport, seg) =>
      { s with
        transport
        output := s.output ++ [seg.bytes]
        flying := s.flying ++ [(seg.bytes.length, seg.mss)] }
  | .arrive skip memory head =>
    match s.flying.drop skip with
    | [] => s
    | (len, mss) :: flying =>
      { s with transport := s.transport.arrive len mss memory head, flying }
  | .advertise memory => { s with transport := s.transport.advertise memory }

/-- **The transport sends what was written, within its window.** -/
structure Flow (s : Sending) : Prop where
  /-- What was put out, then what is pending, is what was written. -/
  order : s.output.flatten ++ s.transport.bytes = s.input
  written : s.transport.written = s.input.length
  transmitted : s.transport.transmitted = s.output.flatten.length
  outstanding : s.transport.received + (s.flying.map Prod.fst).sum ≤ s.transport.transmitted
  window : s.transport.transmitted ≤ s.transport.windowEnd

/-! ## What each operation keeps -/

namespace Flow

variable {s : Sending}

section

variable (h : s.Flow)
include h

theorem push (bytes : List UInt8) : (s.step (.push bytes)).Flow where
  __ := h
  order := by
    show s.output.flatten ++ (s.transport.toBacklog.push bytes).bytes = s.input ++ bytes
    rw [Backlog.bytes_push, ← append_assoc, h.order]
  written := by
    show s.transport.written + bytes.length = (s.input ++ bytes).length
    rw [h.written, length_append]

theorem direct (bytes : List UInt8) : (s.step (.direct bytes)).Flow := by
  simp only [step]
  split
  · exact h
  · rename_i transport mss hdirect
    obtain ⟨hpending, hroom, -, rfl⟩ := direct_spec hdirect
    obtain ⟨horder, hwritten, htransmitted, houtstanding, hwindow⟩ := h
    rw [hpending, append_nil] at horder
    refine ⟨?_, ?_, ?_, ?_, ?_⟩
    · rw [hpending, append_nil, flatten_append, flatten_singleton, horder]
    · rw [hwritten, length_append]
    · rw [flatten_append, flatten_singleton, length_append, htransmitted]
    · simp only [map_append, map_cons, map_nil, sum_append, sum_cons,
        sum_nil]
      omega
    · show s.transport.transmitted + bytes.length ≤ s.transport.windowEnd
      omega

theorem next : (s.step .next).Flow := by
  simp only [step]
  split
  · exact h
  · rename_i transport seg hnext
    obtain ⟨-, hbytes, -, hsent, backlog, pushes, heq⟩ := next_spec hnext
    obtain ⟨hreceived, hend, -⟩ := next_counters hnext
    obtain ⟨horder, hwritten, htransmitted, houtstanding, hwindow⟩ := h
    have hroom := TcpTransport.next_window hnext
    refine ⟨?_, ?_, ?_, ?_, ?_⟩
    · rw [flatten_append, flatten_singleton, append_assoc, hbytes, horder]
    · rw [heq]
      exact hwritten
    · rw [flatten_append, flatten_singleton, length_append, hsent, htransmitted]
    · simp only [map_append, map_cons, map_nil, sum_append, sum_cons,
        sum_nil]
      omega
    · exact hroom

theorem arrive (skip memory head : Nat) :
    (s.step (.arrive skip memory head)).Flow := by
  simp only [step]
  split
  · exact h
  · rename_i len mss flying hflying
    obtain ⟨hreceived, htransmitted, hend, -⟩ := s.transport.arrive_counters len mss memory head
    obtain ⟨hbacklog, hwritten⟩ := s.transport.arrive_frame len mss memory head
    -- the pieces skipped only lower the sum
    have hsum : len + (flying.map Prod.fst).sum ≤ (s.flying.map Prod.fst).sum := by
      have hsplit := take_append_drop skip s.flying
      rw [hflying] at hsplit
      rw [← hsplit]
      simp only [map_append, map_cons, sum_append, sum_cons]
      omega
    have houtstanding := h.outstanding
    have hwindow := h.window
    refine ⟨?_, ?_, ?_, ?_, ?_⟩
    · rw [hbacklog]
      exact h.order
    · exact hwritten.trans h.written
    · exact htransmitted.trans h.transmitted
    · show (s.transport.arrive len mss memory head).received + (flying.map Prod.fst).sum
        ≤ (s.transport.arrive len mss memory head).transmitted
      omega
    · show (s.transport.arrive len mss memory head).transmitted
        ≤ (s.transport.arrive len mss memory head).windowEnd
      omega

theorem advertise (memory : Nat) : (s.step (.advertise memory)).Flow where
  __ := h
  window := h.window.trans (s.transport.le_advertise_windowEnd memory)

theorem step (op : Op) : (s.step op).Flow := by
  cases op with
  | push bytes => exact h.push bytes
  | direct bytes => exact h.direct bytes
  | next => exact h.next
  | arrive skip memory head => exact h.arrive skip memory head
  | advertise memory => exact h.advertise memory

end

end Flow

theorem flow_new (buffer mtu : Nat) (v6 : Bool) (gsoSize : Nat) :
    (new buffer mtu v6 gsoSize).Flow :=
  ⟨rfl, rfl, rfl, Nat.le_refl 0, Nat.zero_le _⟩

theorem le_step_windowEnd (s : Sending) (op : Op) :
    s.transport.windowEnd ≤ (s.step op).transport.windowEnd := by
  cases op with
  | push bytes => exact Nat.le_refl _
  | direct bytes =>
    simp only [step]
    split
    · exact Nat.le_refl _
    · rename_i hdirect
      obtain ⟨-, -, -, rfl⟩ := direct_spec hdirect
      exact Nat.le_refl _
  | next =>
    simp only [step]
    split
    · exact Nat.le_refl _
    · rename_i hnext
      exact (next_counters hnext).2.1.ge
  | arrive skip memory head =>
    simp only [step]
    split
    · exact Nat.le_refl _
    · exact (s.transport.arrive_counters _ _ memory head).2.2.1
  | advertise memory => exact s.transport.le_advertise_windowEnd memory

structure Controlled (s : Sending) : Prop where
  order : s.output.flatten <+: s.input
  written : s.transport.written = s.input.length
  received : s.transport.received ≤ s.transport.transmitted
  transmitted : s.transport.transmitted ≤ s.transport.written
  window : s.transport.transmitted ≤ s.transport.windowEnd
  /-- The subtraction of `pending_bytes` does not underflow. -/
  offset : s.transport.offset ≤ (s.transport.pending.map List.length).sum
  pending : s.transport.pendingBytes = s.transport.written - s.transport.transmitted
  progress : 0 < s.transport.pendingBytes → s.transport.transmitted < s.transport.windowEnd →
    ∃ transport seg, s.transport.next = some (transport, seg) ∧ seg.bytes ≠ []

theorem Flow.controlled {s : Sending} (h : s.Flow) : s.Controlled := by
  obtain ⟨horder, hwritten, htransmitted, houtstanding, hwindow⟩ := h
  have hlen : s.output.flatten.length + s.transport.bytes.length = s.input.length := by
    rw [← length_append, horder]
  refine ⟨⟨s.transport.bytes, horder⟩, hwritten, by omega, by omega, hwindow, ?_, ?_, ?_⟩
  · rw [← length_flatten]
    exact s.transport.toBacklog.offset_le
  · rw [Backlog.pendingBytes_eq]
    omega
  · intro hpending hopen
    cases hnext : s.transport.next with
    | some sent => exact ⟨sent.1, sent.2, rfl, (next_spec hnext).1⟩
    | none =>
      -- `next` declines only with the window shut or nothing pending
      rcases TcpTransport.next_eq_none.mp hnext with hshut | hnil
      · omega
      · rw [Backlog.pendingBytes_eq, hnil] at hpending
        exact absurd hpending (Nat.lt_irrefl 0)

/-- **Flow control.** In every run from a new transport, of any buffer, MTU and segmentation size,
what is put out is a front part of what is written and stays within the window, which never moves
back; bytes are never stuck behind an open window. -/
theorem flow_kept (buffer mtu : Nat) (v6 : Bool) (gsoSize : Nat) (ops : List Op) :
    Runs.Always step Controlled (new buffer mtu v6 gsoSize) ops
      ∧ Runs.Along step (fun s op => s.transport.windowEnd ≤ (s.step op).transport.windowEnd)
          (new buffer mtu v6 gsoSize) ops := by
  have hflow := flow_new buffer mtu v6 gsoSize
  constructor
  · have hstep : ∀ (s : Sending) op, s.Flow → (s.step op).Flow := fun s op h => h.step op
    have hruns := Runs.always_of_step hstep hflow ops
    exact hruns.imp fun s h => h.controlled
  · exact Runs.along_of_step (I := Flow) (fun s op h => h.step op)
      (fun s op _ => s.le_step_windowEnd op) hflow ops

/-! ## Zero windows -/

/-- What the window's arithmetic needs of a run: segments on their way are no larger than the bound
on the window. -/
structure Windowed (s : Sending) : Prop where
  sound : s.transport.Sound
  current : s.transport.Current
  flying : ∀ piece ∈ s.flying, piece.2 ≤ s.transport.threshold

namespace Windowed

variable {s : Sending}

theorem direct (h : s.Windowed) (bytes : List UInt8) : (s.step (.direct bytes)).Windowed := by
  simp only [Sending.step]
  split
  · exact h
  · rename_i transport mss hdirect
    obtain ⟨-, -, rfl, rfl⟩ := direct_spec hdirect
    refine ⟨{ h.sound with }, h.current, fun piece hpiece => ?_⟩
    rcases mem_append.mp hpiece with hpiece | hpiece
    · exact h.flying piece hpiece
    · obtain rfl := mem_singleton.mp hpiece
      exact h.sound.mss_le

theorem next (h : s.Windowed) : (s.step .next).Windowed := by
  simp only [Sending.step]
  split
  · exact h
  · rename_i transport seg hnext
    obtain ⟨hreceived, hend, hthreshold, hadvertised⟩ := next_counters hnext
    obtain ⟨-, -, hmss, -⟩ := next_spec hnext
    have hcurrent := h.current
    refine ⟨h.sound.next hnext, ?_, fun piece hpiece => ?_⟩
    · simp only [TcpTransport.Current] at hcurrent ⊢
      omega
    · rw [hthreshold]
      rcases mem_append.mp hpiece with hpiece | hpiece
      · exact h.flying piece hpiece
      · obtain rfl := mem_singleton.mp hpiece
        exact hmss.trans_le h.sound.packetMss_le

theorem arrive (h : s.Windowed) (skip memory head : Nat) :
    (s.step (.arrive skip memory head)).Windowed := by
  simp only [Sending.step]
  split
  · exact h
  · rename_i len mss flying hflying
    have hmem : ∀ piece ∈ (len, mss) :: flying, piece.2 ≤ s.transport.threshold :=
      fun piece hpiece => h.flying piece (mem_of_mem_drop (hflying ▸ hpiece))
    -- the bound on the window only grows
    have hgrows := (s.transport.arrive_counters len mss memory head).2.2.2
    exact ⟨h.sound.arrive len memory head (hmem _ mem_cons_self),
      s.transport.arrive_current len mss memory head,
      fun piece hpiece => (hmem piece (mem_cons_of_mem _ hpiece)).trans hgrows⟩

theorem step (h : s.Windowed) (op : Op) : (s.step op).Windowed := by
  cases op with
  | push bytes => exact ⟨{ h.sound with }, h.current, h.flying⟩
  | direct bytes => exact h.direct bytes
  | next => exact h.next
  | arrive skip memory head => exact h.arrive skip memory head
  | advertise memory => exact ⟨h.sound.advertise memory, rfl, h.flying⟩

end Windowed

/-- **A shut window opens again.** For every buffer whose shares do not wrap, every MTU and every
segmentation size: whatever segments were sent and memory charged, once everything transmitted has
been received and no memory is charged, advertising reaches beyond what was transmitted. -/
theorem window_reopens {buffer : Nat} (hbuffer : Fits buffer) (mtu : Nat) (v6 : Bool)
    (gsoSize : Nat) (ops : List Op) :
    Runs.Always step (fun s => s.transport.received = s.transport.transmitted →
      s.transport.transmitted < (s.transport.advertise 0).windowEnd)
      (new buffer mtu v6 gsoSize) ops := by
  have hnew : (new buffer mtu v6 gsoSize).Windowed :=
    ⟨TcpTransport.new_sound hbuffer mtu v6 gsoSize, TcpTransport.new_current buffer mtu v6 gsoSize,
      nofun⟩
  have hruns := Runs.always_of_step (I := Windowed) (fun s op h => h.step op) hnew ops
  exact hruns.imp fun s h hall => hall ▸ h.sound.advertise_opens h.current

/-- Two segments use up the window of a buffer of the least size; each arrives while the receiver's
memory is full, so no more is offered. -/
def shutting : List Op :=
  [.push (replicate 2000 7), .next, .arrive 0 2304 0, .next, .arrive 0 2304 0]

/-- The window is shut and all is received; once the memory is free it opens. -/
theorem window_reopens_shut :
    let t := (shutting.foldl step (new 2304 1500 false 0)).transport
    t.windowEnd = t.transmitted ∧ t.received = t.transmitted ∧
      t.transmitted < (t.advertise 0).windowEnd := by
  intro t
  have hfits : Fits 2304 := by decide
  have hall : t.received = t.transmitted := by decide +kernel
  exact ⟨by decide +kernel, hall, (window_reopens hfits 1500 false 0 shutting).last hall⟩

/-- A direct write that arrives at once, with no memory charged to the receiver. -/
def through (t : TcpTransport) (len head : Nat) : TcpTransport :=
  match t.direct len with
  | none => t
  | some (t, mss) => t.arrive len mss 0 head

/-- The first window of a buffer of 2^57 bytes is used up, everything is received and no memory is
charged; half the buffer's share wraps to 0, so nothing is ever advertised again. -/
theorem window_wraps_shut :
    let t := through (through (through (.new (2 ^ 57) 65535 false 0) 32767 32767) 32767 32767) 1 1
    t.transmitted = 65535 ∧ t.received = t.transmitted ∧
      (t.advertise 0).windowEnd = t.transmitted ∧ t.advertise 0 = t := by
  decide +kernel

end Sending

end Snare.Stream
