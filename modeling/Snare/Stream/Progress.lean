import Snare.Stream.Flow

/-!
# A read stream never stalls

* **`no_stall`**: along every run whose actions are all `Fed`;
* **`tester_stalls`**: a tester's window that stays closed, with bytes waiting for good.
-/

namespace Snare.Stream

open List

namespace Pipe

variable {p : Pipe} {now : Clocks}

theorem used_eq (p : Pipe) : p.used = p.content.length := by
  have hbacklog : p.backlog.length = p.transport.elim 0 fun t => t.pendingBytes := by
    unfold backlog
    cases p.transport with
    | none => rfl
    | some t => exact t.pendingBytes_eq.symm
  simp only [used, content, sent, crossing, length_append, length_flatMap, hbacklog]

/-! ## Transmitting -/

def transmitted (p : Pipe) : Nat := p.transport.elim 0 fun t => t.transmitted

theorem arrive_transmitted (p : Pipe) (bytes : List UInt8) (mss : Nat) :
    (p.arrive bytes mss).transmitted = p.transmitted := by
  unfold arrive transmitted
  split
  · rfl
  · split
    · rfl
    · cases p.transport with
      | none => rfl
      | some t => exact (t.arrive_counters _ _ _ _).2.1

theorem launch_transmitted (p : Pipe) (now : Clocks) (delay : Nat)
    (bytes : List UInt8) (mss : Nat) :
    (p.launch now delay bytes mss).transmitted = p.transmitted := by
  unfold launch
  split
  · exact p.arrive_transmitted bytes mss
  · rfl

variable {t : TcpTransport}

theorem cut_transmitted {t' : TcpTransport} {seg : Segment} (ht : p.transport = some t)
    (hnext : t.next = some (t', seg)) (delay : Nat) : p.transmitted
      < ({ p with transport := some t' }.launch now delay seg.bytes seg.mss).transmitted := by
  obtain ⟨hseg, -, -, htransmitted, -⟩ := TcpTransport.next_spec hnext
  have hlen := length_pos_iff.mpr hseg
  rw [launch_transmitted]
  simp only [transmitted, ht, Option.elim_some]
  omega

theorem le_transmit_transmitted (p : Pipe) (now : Clocks) :
    p.transmitted ≤ (p.transmit now).transmitted := by
  refine transmit_induction (P := fun q => p.transmitted ≤ q.transmitted) now ?_ (Nat.le_refl _)
  intro q t t' seg hq ht hnext
  exact hq.trans (cut_transmitted ht hnext _).le

theorem lt_transmit_transmitted (ht : p.transport = some t)
    (hopen : t.transmitted < t.windowEnd) (hpending : t.bytes ≠ []) :
    p.transmitted < (p.transmit now).transmitted := by
  cases hnext : t.next with
  | none =>
    rcases TcpTransport.next_eq_none.mp hnext with hshut | hempty
    · omega
    · exact absurd hempty hpending
  | some cut =>
    obtain ⟨t', seg⟩ := cut
    rw [transmit]
    split
    · next hnone => simp [ht, hnext] at hnone
    · next t'' seg' hsome =>
      have hcut : t.next = some (t'', seg') := by simpa [ht] using hsome
      exact (cut_transmitted ht hcut _).trans_le (le_transmit_transmitted _ now)

theorem lt_land_transmitted (ht : p.transport = some t)
    (hopen : t.transmitted < t.windowEnd) (hpending : t.bytes ≠ []) (hidle : p.inFlight = [])
    (hup : p.linkUp) (hheld : p.held now = none) : p.transmitted < (p.land now).transmitted := by
  have hnone : p.landFlights now = p := by
    rw [landFlights]
    split
    · rfl
    · next hflights => simp [hidle] at hflights
  rw [land, if_neg (by simpa using hup), if_neg (by simp [hheld]), hnone]
  exact lt_transmit_transmitted ht hopen hpending

theorem le_land_transmitted (p : Pipe) (now : Clocks) :
    p.transmitted ≤ (p.land now).transmitted := by
  have hflights : (p.landFlights now).transmitted = p.transmitted := by
    refine landFlights_induction (P := fun q => q.transmitted = p.transmitted) now ?_ rfl
    intro q flight rest hq _
    rw [← hq, arrive_transmitted]
    rfl
  refine land_cases (P := fun q => p.transmitted ≤ q.transmitted) (Nat.le_refl _) ?_
  rw [← hflights]
  exact le_transmit_transmitted _ now

theorem le_readChunk_transmitted (p : Pipe) (now : Clocks) (len : Nat) :
    (p.land now).transmitted ≤ (p.readChunk now len).1.transmitted := by
  unfold readChunk
  dsimp only
  split
  · exact Nat.le_refl _
  · unfold release
    split
    · exact Nat.le_refl _
    · next rec hrec =>
      refine Eq.trans_le ?_ (le_transmit_transmitted _ now)
      -- advertising the window transmits nothing by itself
      unfold transmitted credit
      show _ = ((p.land now).transport.map _).elim 0 _
      cases (p.land now).transport with
      | none => rfl
      | some t => rfl

theorem le_read_transmitted (p : Pipe) (now : Clocks) (len : Nat) :
    (p.land now).transmitted ≤ (p.read now len).1.transmitted := by
  refine readLoop_induction (P := fun q => (p.land now).transmitted ≤ q.transmitted)
    (le_readChunk_transmitted p now len) ?_ []
  intro q len hq
  exact (hq.trans (q.le_land_transmitted now)).trans (q.le_readChunk_transmitted now len)

/-! ## Reading on -/

theorem landFlights_buf (h : ∀ f ∈ p.inFlight, f.at_.passed now) :
    (p.landFlights now).buf = p.sent := by
  fun_induction landFlights p now with
  | case1 p hflights => simp [sent, crossing, hflights]
  | case2 p flight rest hflights hpassed ih =>
    rw [ih fun f hf => h f (by rw [arrive_inFlight] at hf; simp [hflights, hf])]
    simp [sent, arrive_buf, crossing, arrive_inFlight, hflights]
  | case3 p flight rest hflights hpassed => exact absurd (h flight (by simp [hflights])) hpassed

theorem transmit_buf_ne_nil (h : p.buf ≠ []) : (p.transmit now).buf ≠ [] := by
  refine transmit_induction (P := fun q => q.buf ≠ []) now ?_ h
  intro q t t' seg hq _ _
  unfold launch
  split
  · rw [arrive_buf]
    exact append_ne_nil_of_left_ne_nil hq _
  · exact hq

theorem readLoop_copied {len : Nat} {copied : List UInt8} (h : copied ≠ []) :
    (p.readLoop now len copied).2.bytes ≠ [] := by
  fun_induction readLoop p now len copied with
  | case1 p len copied p' out hchunk hdone => exact append_ne_nil_of_left_ne_nil h _
  | case2 p len copied p' out hchunk hmore ih => exact ih (append_ne_nil_of_left_ne_nil h _)
  | case3 p len copied p' other hchunk hother =>
    rw [if_neg h]
    exact h

theorem Live.read_bytes (h : p.Live) (hcontent : p.content ≠ []) (hup : p.linkUp)
    (hheld : p.held now = none) (harrived : ∀ f ∈ p.inFlight, f.at_.passed now) {len : Nat}
    (hlen : 0 < len) : (p.read now len).2.bytes ≠ [] := by
  have hsent : p.sent ≠ [] := fun hsent => hcontent (by simp [content, hsent, h.idle hsent])
  have hbuf : (p.land now).buf ≠ [] := by
    rw [Pipe.land, if_neg (by simpa using hup), if_neg (by simp [hheld])]
    exact transmit_buf_ne_nil (by rwa [landFlights_buf harrived])
  have hout : (p.land now).buf.take len ≠ [] := by
    intro hnil
    rcases take_eq_nil_iff.mp hnil with hzero | hempty
    · omega
    · exact hbuf hempty
  have hchunk : (p.readChunk now len).2 = .data ((p.land now).buf.take len) := by
    unfold Pipe.readChunk
    rw [if_neg hbuf]
  unfold Pipe.read
  rw [readLoop]
  split
  · next p' out hdata =>
    rw [hdata] at hchunk
    simp only [Read.data.injEq] at hchunk
    split
    · simpa [Read.bytes, hchunk] using hout
    · exact readLoop_copied (by simpa [hchunk] using hout)
  · next p' other hother hdata =>
    rw [hdata] at hchunk
    exact absurd hchunk (hother _)

end Pipe

/-! ## Whole runs -/

namespace Line

/-- The bytes accepted are those returned and those the pipe holds, in some order. -/
def Accounted (l : Line) : Prop := (l.delivered ++ l.pipe.content).Perm l.accepted

variable {l : Line}

theorem Accounted.step (h : l.Accounted) (op : Op) : (l.step op).Accounted := by
  have hcontent : ((l.effect op).taken ++ (l.step op).pipe.content).Perm
      (l.pipe.content ++ (l.effect op).accepted) := by
    rcases l.pipe.apply_content l.now op with heq | ⟨-, -, -, htaken, hsent, hbacklog⟩
    · exact .of_eq heq
    · -- ahead of the backlog rather than behind it
      show ((l.pipe.apply l.now op).2.taken ++ (l.pipe.apply l.now op).1.content).Perm
        (l.pipe.content ++ (l.pipe.apply l.now op).2.accepted)
      rw [htaken, Pipe.content, Pipe.content, hsent, hbacklog, nil_append, append_assoc,
        append_assoc]
      exact List.Perm.append_left _ perm_append_comm
  have hfirst := hcontent.append_left l.delivered
  rw [← append_assoc, ← append_assoc] at hfirst
  exact hfirst.trans (h.append_right _)

/-- The reader reads on: time passes, or it reads into some room once what is in flight has arrived,
with the link up, no stall, and its reads giving back. -/
def ReadsOn (l : Line) (op : Op) : Prop :=
  (∃ now, op = .tick now)
    ∨ ((∃ len, 0 < len ∧ op = .read len) ∧ l.pipe.linkUp ∧ l.pipe.held l.now = none
      ∧ (∀ f ∈ l.pipe.inFlight, f.at_.passed l.now) ∧ l.pipe.Drains)

/-- **Reading on empties the pipe**, in as many reads as it holds bytes. -/
theorem readsOn_empties (h : l.pipe.Live) {ops : List Op}
    (hops : Runs.Along step ReadsOn l ops) (hcount : l.pipe.used ≤ ops.countP Op.reads) :
    (ops.foldl step l).pipe.content = [] := by
  induction ops generalizing l with
  | nil =>
    rw [Pipe.used_eq] at hcount
    exact length_eq_zero_iff.mp (Nat.le_zero.mp hcount)
  | cons op ops ih =>
    obtain ⟨hop, hops⟩ := hops
    rw [countP_cons] at hcount
    rcases hop with ⟨now, rfl⟩ | ⟨⟨len, hlen, rfl⟩, hup, hheld, harrived, hdrains⟩
    · have hcount : l.pipe.used ≤ ops.countP Op.reads := by simpa [Op.reads] using hcount
      exact ih h hops hcount
    · have hlive : (l.step (.read len)).pipe.Live := h.read hdrains l.now len
      refine ih hlive hops ?_
      -- a read of a pipe that holds bytes takes at least one
      have hread := l.pipe.readLoop_content l.now len []
      have hlength := congrArg List.length hread
      simp only [nil_append, length_append] at hlength
      rw [Pipe.used_eq] at hcount ⊢
      simp only [Op.reads, if_true] at hcount
      show (l.pipe.read l.now len).1.content.length ≤ _
      rcases Decidable.em (l.pipe.content = []) with hnil | hcontent
      · rw [hnil, length_nil] at hlength
        simp only [Pipe.read]
        omega
      · have hbytes := h.read_bytes hcontent hup hheld harrived hlen
        have hpos := length_pos_iff.mpr hbytes
        simp only [Pipe.read] at hpos ⊢
        omega

def WindowOpen (l : Line) : Prop :=
  ∀ t, l.pipe.transport = some t → l.pipe.buf = [] → l.pipe.inFlight = [] →
    t.transmitted < t.windowEnd

/-- If bytes then wait in the transport, with the link up and no stall, the next landing or read
transmits some of them. -/
def Transmits (l : Line) : Prop :=
  l.pipe.buf = [] → l.pipe.inFlight = [] → l.pipe.backlog ≠ [] → l.pipe.linkUp →
    l.pipe.held l.now = none →
    l.pipe.transmitted < (l.pipe.land l.now).transmitted
      ∧ ∀ len, l.pipe.transmitted < (l.pipe.read l.now len).1.transmitted

/-- A reader that reads on, as often as the pipe holds bytes, has read every byte accepted. -/
def Delivers (l : Line) : Prop :=
  ∀ ops, Runs.Along step ReadsOn l ops → l.pipe.used ≤ ops.countP Op.reads →
    (ops.foldl step l).pipe.used = 0
      ∧ (ops.foldl step l).delivered.Perm (ops.foldl step l).accepted

theorem windowOpen (h : l.pipe.Live) : l.WindowOpen := by
  intro t ht hbuf hidle
  exact (h.transport t ht).window_open hbuf (by rw [hidle]; rfl)

theorem transmits (h : l.pipe.Live) : l.Transmits := by
  intro hbuf hidle hbacklog hup hheld
  cases ht : l.pipe.transport with
  | none => simp [Pipe.backlog, ht] at hbacklog
  | some t =>
    have hpending : t.bytes ≠ [] := by simpa [Pipe.backlog, ht] using hbacklog
    have hland := Pipe.lt_land_transmitted ht
      (windowOpen h t ht hbuf hidle) hpending hidle hup hheld
    exact ⟨hland, fun len => hland.trans_le (l.pipe.le_read_transmitted l.now len)⟩

theorem delivers (h : l.pipe.Live) (haccounted : l.Accounted) : l.Delivers := by
  intro ops hops hcount
  have hempty := readsOn_empties h hops hcount
  have hruns : Runs.Always step Accounted l ops :=
    Runs.always_of_step (fun l op hl => hl.step op) haccounted ops
  have hlast := hruns.last
  refine ⟨by rw [Pipe.used_eq, hempty]; rfl, ?_⟩
  rwa [Accounted, hempty, append_nil] at hlast

/-- **No permanent stall.** Along every run whose actions are all `Fed`, in every state: with
nothing readable and nothing in flight the window is open, a landing or a read then transmits, and a
reader that reads on gets every byte accepted. -/
theorem no_stall (via : Option LinkState) (ends : Ends) (now : Clocks) (ops : List Op)
    (h : Runs.Along step (fun l op => l.pipe.Fed op) (begin via (some ends) now) ops) :
    Runs.Always step (fun l => l.WindowOpen ∧ l.Transmits ∧ l.Delivers)
      (begin via (some ends) now) ops := by
  have hbegin : (begin via (some ends) now).pipe.Live ∧ (begin via (some ends) now).Accounted := by
    refine ⟨⟨⟨rfl, nofun, rfl, nofun, fun _ => nofun, nofun⟩, fun _ => rfl⟩, ?_⟩
    exact List.Perm.refl _
  have hruns : Runs.Always step (fun l => l.pipe.Live ∧ l.Accounted)
      (begin via (some ends) now) ops :=
    Runs.always_of_along (fun l op hl hop => ⟨hl.1.apply hop, hl.2.step op⟩) hbegin h
  exact hruns.imp fun l hl => ⟨windowOpen hl.1, transmits hl.1, delivers hl.1 hl.2⟩

/-- Three hundred bytes to a socket with a receive buffer of 512, of which 256 fit the window. -/
theorem no_stall_small_buffer :
    let reader := stamping.mapBuf fun b => { b with rcvbuf := 512, rcvLocked := true }
    let ops := [.setMtu 1500, .readBy reader, .writeAfter (List.replicate 300 1) 0, .read 400]
    let start := begin none (some { limits := {} }) ⟨some 0, 0⟩
    Runs.Along step (fun l op => l.pipe.Fed op) start ops
      ∧ Runs.Always step (fun l => l.WindowOpen ∧ l.Transmits ∧ l.Delivers) start ops :=
  have h : Runs.Along step (fun l op => l.pipe.Fed op)
      (begin none (some { limits := {} }) ⟨some 0, 0⟩)
      [.setMtu 1500, .readBy (stamping.mapBuf fun b => { b with rcvbuf := 512, rcvLocked := true }),
        .writeAfter (List.replicate 300 1) 0, .read 400] := by
    decide +kernel
  ⟨h, no_stall none { limits := {} } ⟨some 0, 0⟩ _ h⟩

/-- **A tester stalls.** Of 300 bytes written 256 fit the window, arrive and are read. The tester's
memory is never given back: 44 bytes wait, the window is closed, and neither a landing nor a read
transmits any of them. -/
theorem tester_stalls :
    let l := [.writeAfter (List.replicate 300 1) 0, .read 400].foldl step toTester
    l.pipe.buf = [] ∧ l.pipe.inFlight.length = 0 ∧ l.pipe.backlog.length = 44 ∧ l.pipe.linkUp
      ∧ l.pipe.held l.now = none
      ∧ l.pipe.transport.all (fun t => decide (t.windowEnd ≤ t.transmitted))
      ∧ (l.pipe.land l.now).transmitted = l.pipe.transmitted
      ∧ (l.pipe.read l.now 400).1.transmitted = l.pipe.transmitted
      ∧ (l.pipe.read l.now 400).2.bytes = [] := by
  decide +kernel

end Line

end Snare.Stream
