import Snare.Stream.Line

/-!
# Bytes keep their order

What a pipe holds is `Pipe.content`: the readable bytes, then those crossing the link, then those in
the transport. Landing and transmitting move bytes from one place to the next and leave the content
as it is; a read takes it off at the front. A write adds at the end of it
(**`writeAfter_content`**), with one exception: a write that does not go through the transport puts
its bytes behind those in flight, and so ahead of what waits in the transport.

* **`order_kept`**: along every run in which each write accepted past the transport finds it empty;
* **`order_broken`**: timestamps switched off while bytes wait for the window.
-/

namespace Snare.Stream

namespace Pipe

/-- The bytes that have left the writer's end: readable, or crossing the link. -/
def sent (p : Pipe) : List UInt8 := p.buf ++ p.crossing

def content (p : Pipe) : List UInt8 := p.sent ++ p.backlog

variable {p : Pipe} {now : Clocks}

/-! ## What moving bytes leaves alone -/

def errorMem (p : Pipe) : Nat := p.reader.elim 0 fun rec => rec.buf.errorMem

/-- `q` is `p` but for where its bytes are and what is charged for them. -/
structure SameSetting (p q : Pipe) : Prop where
  via : q.via = p.via
  ends : q.ends = p.ends
  readShut : q.readShut = p.readShut
  reader : q.reader.isSome = p.reader.isSome
  errorMem : q.errorMem = p.errorMem
  transport : q.transport.isSome = p.transport.isSome
  writer : q.writer = p.writer
  closed : q.closed = p.closed

theorem SameSetting.refl (p : Pipe) : SameSetting p p := ⟨rfl, rfl, rfl, rfl, rfl, rfl, rfl, rfl⟩

theorem SameSetting.trans {p q r : Pipe} (h : SameSetting p q) (h' : SameSetting q r) :
    SameSetting p r :=
  ⟨h'.via.trans h.via, h'.ends.trans h.ends, h'.readShut.trans h.readShut,
    h'.reader.trans h.reader, h'.errorMem.trans h.errorMem, h'.transport.trans h.transport,
    h'.writer.trans h.writer, h'.closed.trans h.closed⟩

theorem arrive_setting (p : Pipe) (bytes : List UInt8) (mss : Nat) :
    SameSetting p (p.arrive bytes mss) := by
  unfold arrive charge
  split
  · exact .refl p
  · split
    · exact ⟨rfl, rfl, rfl, rfl, rfl, rfl, rfl, rfl⟩
    · refine ⟨rfl, rfl, rfl, ?_, ?_, Option.isSome_map, rfl, rfl⟩
      · cases hreader : p.reader with
        | none => rfl
        | some rec => rfl
      · unfold errorMem
        cases hreader : p.reader with
        | none => rfl
        | some rec => rfl

theorem launch_setting (p : Pipe) (now : Clocks) (delay : Nat) (bytes : List UInt8) (mss : Nat) :
    SameSetting p (p.launch now delay bytes mss) := by
  unfold launch
  split
  · exact p.arrive_setting bytes mss
  · exact ⟨rfl, rfl, rfl, rfl, rfl, rfl, rfl, rfl⟩

theorem transmit_induction {P : Pipe → Prop} (now : Clocks)
    (hstep : ∀ p t t' seg, P p → p.transport = some t → t.next = some (t', seg) →
      P ({ p with transport := some t' }.launch now p.transportDelay seg.bytes seg.mss))
    (hp : P p) : P (p.transmit now) := by
  fun_induction transmit p now with
  | case1 p hnext => exact hp
  | case2 p t' seg hnext ih =>
    obtain ⟨t, ht, hnext⟩ := Option.bind_eq_some_iff.mp hnext
    exact ih (hstep p t t' seg hp ht hnext)

theorem transmit_setting (p : Pipe) (now : Clocks) : SameSetting p (p.transmit now) := by
  refine transmit_induction (P := SameSetting p) now ?_ (.refl p)
  intro q t t' seg hq ht _
  have hcut : SameSetting q { q with transport := some t' } :=
    ⟨rfl, rfl, rfl, rfl, rfl, (congrArg Option.isSome ht).symm, rfl, rfl⟩
  exact (hq.trans hcut).trans (launch_setting _ now _ seg.bytes seg.mss)

theorem landFlights_induction {P : Pipe → Prop} (now : Clocks)
    (hstep : ∀ p flight rest, P p → p.inFlight = flight :: rest →
      P ({ p with inFlight := rest }.arrive flight.bytes flight.mss))
    (hp : P p) : P (p.landFlights now) := by
  fun_induction landFlights p now with
  | case1 p hflights => exact hp
  | case2 p flight rest hflights hpassed ih => exact ih (hstep p flight rest hp hflights)
  | case3 p flight rest hflights hpassed => exact hp

theorem land_cases {P : Pipe → Prop} {now : Clocks} (hp : P p)
    (hdone : P ((p.landFlights now).transmit now)) : P (p.land now) := by
  unfold land
  split
  · exact hp
  · split
    · exact hp
    · exact hdone

theorem landFlights_setting (p : Pipe) (now : Clocks) : SameSetting p (p.landFlights now) := by
  refine landFlights_induction (P := SameSetting p) now ?_ (.refl p)
  intro q flight rest hq _
  have hpop : SameSetting q { q with inFlight := rest } :=
    ⟨rfl, rfl, rfl, rfl, rfl, rfl, rfl, rfl⟩
  exact (hq.trans hpop).trans (arrive_setting _ flight.bytes flight.mss)

theorem land_setting (p : Pipe) (now : Clocks) : SameSetting p (p.land now) :=
  land_cases (.refl p) ((p.landFlights_setting now).trans (transmit_setting _ now))

theorem release_setting (p : Pipe) (now : Clocks) (n : Nat) : SameSetting p (p.release now n) := by
  unfold release
  split
  · exact .refl p
  · next rec hrec =>
    have hcredit : SameSetting p (p.credit rec n) := by
      refine ⟨rfl, rfl, rfl, (congrArg Option.isSome hrec).symm, ?_, Option.isSome_map, rfl,
        rfl⟩
      simp [errorMem, credit, hrec, SockBuf.consumeTcp]
    exact hcredit.trans (transmit_setting _ now)

theorem readChunk_setting (p : Pipe) (now : Clocks) (len : Nat) :
    SameSetting p (p.readChunk now len).1 := by
  refine (p.land_setting now).trans ?_
  unfold readChunk
  dsimp only
  split
  · exact .refl _
  · have hdrain : ∀ n, SameSetting (p.land now) ((p.land now).drain n) :=
      fun n => ⟨rfl, rfl, rfl, rfl, rfl, rfl, rfl, rfl⟩
    exact (hdrain _).trans (release_setting _ now _)

theorem readLoop_induction {P : Pipe → Prop} {now : Clocks} {len : Nat}
    (hfirst : P (p.readChunk now len).1) (hstep : ∀ q len, P q → P (q.readChunk now len).1)
    (copied : List UInt8) : P (p.readLoop now len copied).1 := by
  fun_induction readLoop p now len copied with
  | case1 p len copied p' out hchunk hdone => simpa [hchunk] using hfirst
  | case2 p len copied p' out hchunk hmore ih =>
    rw [hchunk] at hfirst
    exact ih (hstep p' _ hfirst)
  | case3 p len copied p' other hchunk hother => simpa [hother] using hfirst

/-! ## Moving bytes along -/

theorem arrive_buf (p : Pipe) (bytes : List UInt8) (mss : Nat) :
    (p.arrive bytes mss).buf = p.buf ++ bytes := by
  unfold arrive
  split
  · simp_all
  · split <;> rfl

theorem arrive_crossing (p : Pipe) (bytes : List UInt8) (mss : Nat) :
    (p.arrive bytes mss).crossing = p.crossing := by
  simp only [crossing, arrive_inFlight]

theorem crossing_of_atOnce {delay : Nat} (h : p.atOnce now delay) : p.crossing = [] := by
  simp only [atOnce, Bool.and_eq_true, List.isEmpty_iff] at h
  simp [crossing, h.1.1.2]

theorem launch_sent (p : Pipe) (now : Clocks) (delay : Nat) (bytes : List UInt8) (mss : Nat) :
    (p.launch now delay bytes mss).sent = p.sent ++ bytes := by
  unfold launch
  split
  · -- nothing is in flight when bytes arrive at once
    next honce =>
    simp only [sent, arrive_buf, arrive_crossing, crossing_of_atOnce honce, List.append_nil]
  · simp [sent, crossing]

theorem transmit_content (p : Pipe) (now : Clocks) : (p.transmit now).content = p.content := by
  refine transmit_induction (P := fun q => q.content = p.content) now ?_ rfl
  intro q t t' seg hq ht hnext
  obtain ⟨-, hbytes, -⟩ := TcpTransport.next_spec hnext
  rw [← hq]
  simp only [content, launch_sent, launch_backlog]
  -- the segment leaves the backlog at its front and joins the sent bytes at their end
  simp only [sent, crossing, backlog, ht, Option.elim_some, ← hbytes, List.append_assoc]

theorem landFlights_content (p : Pipe) (now : Clocks) :
    (p.landFlights now).content = p.content := by
  refine landFlights_induction (P := fun q => q.content = p.content) now ?_ rfl
  intro q flight rest hq hflights
  rw [← hq]
  simp only [content, sent, arrive_buf, arrive_crossing, arrive_backlog]
  simp [crossing, hflights, backlog]

theorem land_content (p : Pipe) (now : Clocks) : (p.land now).content = p.content :=
  land_cases (P := fun q => q.content = p.content) rfl
    (by rw [transmit_content, landFlights_content])

/-! ## Writing -/

theorem openTransport_bytes (p : Pipe) : p.openTransport.bytes = p.backlog := by
  unfold openTransport backlog
  cases p.transport with
  | none => rfl
  | some t => rfl

theorem writeTransport_content (p : Pipe) (now : Clocks) (bytes : List UInt8) (delay : Nat) :
    (p.writeTransport now bytes delay).content = p.content ++ bytes := by
  have hopen := p.openTransport_bytes
  unfold writeTransport
  dsimp only
  split
  · -- straight through: the transport is empty and nothing is in flight
    next t mss hdirect =>
    obtain ⟨honce, hdirect⟩ :
        p.atOnce now delay ∧ p.openTransport.direct bytes.length = some (t, mss) := by
      simpa using hdirect
    obtain ⟨hempty, -, -, rfl⟩ := TcpTransport.direct_spec hdirect
    have hidle := crossing_of_atOnce honce
    simp only [content, sent, arrive_buf, arrive_crossing, arrive_backlog, hidle, ← hopen]
    show p.buf ++ bytes ++ p.crossing ++ p.openTransport.bytes = _
    simp [hidle, hempty]
  · rw [transmit_content]
    have hpush := p.openTransport.toBacklog.bytes_push bytes
    rw [hopen] at hpush
    show p.sent ++ (p.openTransport.toBacklog.push bytes).bytes = _
    rw [hpush, content, List.append_assoc]

theorem accepts_le (p : Pipe) (bytes : List UInt8) : p.accepts bytes ≤ bytes.length := by
  unfold accepts
  cases p.capacity with
  | none => exact Nat.le_refl _
  | some cap =>
    simp only [Option.elim_some, takes]
    split
    · exact Nat.le_refl _
    · omega

/-- **Where a write's bytes go.** They go behind all the pipe holds, or, past the transport, behind
what was sent. -/
theorem writeAfter_content (p : Pipe) (now : Clocks) (bytes : List UInt8) (delay : Nat) :
    (p.writeAfter now bytes delay).1.content
        = p.content ++ bytes.take ((p.writeAfter now bytes delay).2.getD 0)
      ∨ (p.closed = false ∧ p.accepts bytes ≠ 0 ∧ p.throughTransport = false
        ∧ (p.writeAfter now bytes delay).1.sent
          = p.sent ++ bytes.take ((p.writeAfter now bytes delay).2.getD 0)
        ∧ (p.writeAfter now bytes delay).1.backlog = p.backlog) := by
  unfold writeAfter
  split
  · exact .inl (by simp)
  · next hopen =>
    dsimp only
    split
    · exact .inl (by simp)
    · next haccepts =>
      split
      · exact .inl (writeTransport_content _ _ _ _)
      · next hpast =>
        exact .inr ⟨by simpa using hopen, haccepts, by simpa using hpast,
          launch_sent _ _ _ _ _, launch_backlog _ _ _ _ _⟩

/-! ## Reading -/

theorem release_content (p : Pipe) (now : Clocks) (n : Nat) :
    (p.release now n).content = p.content := by
  unfold release
  split
  · rfl
  · rw [transmit_content]
    simp only [content, sent, crossing, backlog, credit]
    cases p.transport with
    | none => rfl
    | some t => rfl

theorem readChunk_content (p : Pipe) (now : Clocks) (len : Nat) :
    (p.readChunk now len).2.bytes ++ (p.readChunk now len).1.content = p.content := by
  rw [← land_content p now]
  unfold readChunk
  dsimp only
  split
  · cases hend : (p.land now).atEnd now with
    | data out => exact absurd hend (atEnd_ne_data _ _ _)
    | wouldBlock => rfl
    | eof => rfl
    | reset => rfl
    | shut => rfl
  · rw [release_content]
    have hsplit : (p.land now).buf.take len
        ++ (p.land now).buf.drop ((p.land now).buf.take len).length = (p.land now).buf := by
      rw [List.length_take, List.take_eq_take_min, List.take_append_drop]
    simp only [Read.bytes, content, sent, drain, crossing, backlog, ← List.append_assoc, hsplit]

theorem readLoop_content (p : Pipe) (now : Clocks) (len : Nat) (copied : List UInt8) :
    (p.readLoop now len copied).2.bytes ++ (p.readLoop now len copied).1.content
      = copied ++ p.content := by
  fun_induction readLoop p now len copied with
  | case1 p len copied p' out hchunk hdone =>
    have hcontent := p.readChunk_content now len
    rw [hchunk] at hcontent
    simpa [Read.bytes] using congrArg (copied ++ ·) hcontent
  | case2 p len copied p' out hchunk hmore ih =>
    have hcontent := p.readChunk_content now len
    rw [hchunk] at hcontent
    rw [ih, ← hcontent, Read.bytes, List.append_assoc]
  | case3 p len copied p' other hchunk hother =>
    have hcontent := p.readChunk_content now len
    split <;> simp_all [Read.bytes]

/-! ## The end of the stream -/

theorem content_of_atEnd {now : Clocks} (hbuf : p.buf = []) (hshut : p.readShut = false)
    (h : (p.atEnd now).isEof) : p.content = [] := by
  have hquiet : p.pending = false := by
    unfold atEnd at h
    split at h
    · exact absurd h nofun
    · split at h
      · next hfin =>
        simp only [hshut, Bool.or_false, Bool.and_eq_true, Bool.not_eq_true'] at hfin
        exact hfin.1.2
      · exact absurd h nofun
  simp only [pending, Bool.or_eq_false_iff, Bool.not_eq_false', List.isEmpty_iff] at hquiet
  have hbacklog : p.backlog = [] := by
    unfold backlog
    cases htransport : p.transport with
    | none => rfl
    | some t =>
      have hnone : t.pendingBytes = 0 := by simpa [htransport] using hquiet.2
      rw [t.pendingBytes_eq, List.length_eq_zero_iff] at hnone
      exact hnone
  simp [content, sent, crossing, hbuf, hquiet.1, hbacklog]

theorem readChunk_eof {len : Nat} (hshut : p.readShut = false)
    (h : (p.readChunk now len).2.isEof) : (p.readChunk now len).1.content = [] := by
  have hland := (p.land_setting now).readShut.trans hshut
  unfold readChunk at h ⊢
  dsimp only at h ⊢
  split at h
  · next hbuf =>
    rw [if_pos hbuf]
    exact content_of_atEnd hbuf hland h
  · exact absurd h nofun

theorem readLoop_eof {len : Nat} {copied : List UInt8} (hshut : p.readShut = false)
    (h : (p.readLoop now len copied).2.isEof) : (p.readLoop now len copied).1.content = [] := by
  fun_induction readLoop p now len copied with
  | case1 p len copied p' out hchunk hdone => exact absurd h nofun
  | case2 p len copied p' out hchunk hmore ih =>
    have hsame := (p.readChunk_setting now len).readShut
    rw [hchunk] at hsame
    exact ih (hsame.trans hshut) h
  | case3 p len copied p' other hchunk hother =>
    have hend : (p.readChunk now len).2.isEof → (p.readChunk now len).1.content = [] :=
      readChunk_eof hshut
    rw [hother] at hend
    split at h
    · exact hend h
    · exact absurd h nofun

end Pipe

/-! ## One action -/

def Op.written : Op → List UInt8
  | .writeAfter bytes _ => bytes
  | _ => []

namespace Pipe

theorem readBy_content (p : Pipe) (rec : SockRec) : (p.readBy rec).content = p.content := by
  unfold readBy
  split
  · rfl
  · split <;> rfl

/-- **What an action does to the content.** It takes what it returns off the front and puts what it
accepts at the end, or, past the transport, ahead of the backlog. -/
theorem apply_content (p : Pipe) (now : Clocks) (op : Op) :
    (p.apply now op).2.taken ++ (p.apply now op).1.content
        = p.content ++ (p.apply now op).2.accepted
      ∨ (p.closed = false ∧ p.accepts op.written ≠ 0 ∧ p.throughTransport = false
        ∧ (p.apply now op).2.taken = []
        ∧ (p.apply now op).1.sent = p.sent ++ (p.apply now op).2.accepted
        ∧ (p.apply now op).1.backlog = p.backlog) := by
  cases op with
  | writeAfter bytes delay =>
    rcases p.writeAfter_content now bytes delay with h | ⟨hopen, haccepts, hpast, hsent, hbacklog⟩
    · exact .inl h
    · exact .inr ⟨hopen, haccepts, hpast, rfl, hsent, hbacklog⟩
  | read len =>
    left
    have h := p.readLoop_content now len []
    simpa [apply, read] using h
  | land => exact .inl (by simpa [apply] using p.land_content now)
  | peek len => exact .inl (by simpa [apply, peek] using p.land_content now)
  | reset => exact .inl ((land_content _ now).trans (List.append_nil _).symm)
  | readBy rec => exact .inl (by simpa [apply] using p.readBy_content rec)
  | close | shutRead | link | stall | recvWindow | timestamping | writeBy | pendingReader | setMtu
  | setRcvbuf | setSndbuf | admitError | consumeError | tick =>
    -- what else changes around a pipe leaves its bytes where they are
    exact .inl (List.append_nil _).symm

theorem apply_eof {p : Pipe} {now : Clocks} {op : Op} (hshut : p.readShut = false)
    (h : (p.apply now op).2.eof) : (p.apply now op).1.content = [] := by
  cases op with
  | read len => exact readLoop_eof hshut h
  | peek len =>
    simp only [apply, peek] at h ⊢
    split at h
    · next hbuf => exact content_of_atEnd hbuf ((p.land_setting now).readShut.trans hshut) h
    · exact absurd h nofun
  | writeAfter | land | close | shutRead | reset | link | stall | recvWindow | timestamping | readBy
  | writeBy | pendingReader | setMtu | setRcvbuf | setSndbuf | admitError | consumeError | tick =>
    exact absurd h nofun

end Pipe

/-! ## Whole runs -/

namespace Line

def Ordered (l : Line) (op : Op) : Prop :=
  l.pipe.closed ∨ l.pipe.accepts op.written = 0 ∨ l.pipe.throughTransport ∨ l.pipe.backlog = []

instance (l : Line) (op : Op) : Decidable (l.Ordered op) :=
  inferInstanceAs (Decidable (_ ∨ _ ∨ _ ∨ _))

/-- What was read, followed by what the pipe holds, is what was accepted. -/
def InOrder (l : Line) : Prop := l.delivered ++ l.pipe.content = l.accepted

theorem InOrder.step {l : Line} {op : Op} (h : l.InOrder) (hop : l.Ordered op) :
    (l.step op).InOrder := by
  have happly := l.pipe.apply_content l.now op
  unfold InOrder at h ⊢
  simp only [Line.step, effect, ← h, List.append_assoc]
  congr 1
  rcases happly with happly | ⟨hopen, haccepts, hpast, htaken, hsent, hbacklog⟩
  · exact happly
  · -- past the transport, but nothing waits there
    have hempty : l.pipe.backlog = [] := by
      simpa [Ordered, hopen, haccepts, hpast] using hop
    simp [Pipe.content, htaken, hsent, hbacklog, hempty]

/-- **Bytes are delivered in order.** Along every run in which each write accepted past the
transport finds it empty, what was read is a prefix of what was accepted, and the pipe holds the
rest; and who is told the end of the stream, with the reading end not shut, has read all of it. -/
theorem order_kept (via : Option LinkState) (ends : Option Ends) (now : Clocks) (ops : List Op)
    (h : Runs.Along step Ordered (begin via ends now) ops) :
    Runs.Always step (fun l => l.delivered <+: l.accepted ∧ l.InOrder) (begin via ends now) ops
      ∧ Runs.Along step (fun l op => (l.effect op).eof → l.pipe.readShut = false →
            (l.step op).delivered = (l.step op).accepted) (begin via ends now) ops := by
  have hbegin : (begin via ends now).InOrder := rfl
  constructor
  · have hruns := Runs.always_of_along (fun l op hl hop => hl.step hop) hbegin h
    exact hruns.imp fun l hl => ⟨⟨l.pipe.content, hl⟩, hl⟩
  · refine Runs.along_of_along (fun l op hl hop => hl.step hop) ?_ hbegin h
    intro l op hl hop heof hshut
    have hnext : (l.step op).InOrder := hl.step hop
    have hcontent : (l.step op).pipe.content = [] := Pipe.apply_eof hshut heof
    rwa [InOrder, hcontent, List.append_nil] at hnext

/-! ## The run that breaks the order -/

/-- A socket of the code under test that asks for software transmit timestamps. -/
def stamping : SockRec where
  buf := {
    rcvbuf := 131072, sndbuf := 87040, rcvLocked := false, enforceError := false, errorMem := 0,
    skb := (960, 378), rmemAlloc := 0 }
  flags := txSoftware

/-- A direction to a tester with a receive buffer of 512 bytes, written by `stamping`. -/
def toTester : Line :=
  [.writeBy stamping, .setMtu 1500].foldl step
    (begin none (some { limits := { tcpRmemDefault := 512 } }) ⟨some 0, 0⟩)

/-- A write crossing the link, read in two parts, and the stream closed in between. -/
theorem order_kept_crossing :
    Runs.Along step Ordered (begin none (some { limits := {} }) ⟨some 0, 0⟩)
        [.writeBy stamping, .writeAfter [1, 2, 3] 5, .tick ⟨some 5, 0⟩, .read 2, .close, .read 2]
      ∧ Runs.Always step (fun l => l.delivered <+: l.accepted ∧ l.InOrder)
        (begin none (some { limits := {} }) ⟨some 0, 0⟩)
        [.writeBy stamping, .writeAfter [1, 2, 3] 5, .tick ⟨some 5, 0⟩, .read 2, .close, .read 2] :=
  have h : Runs.Along step Ordered (begin none (some { limits := {} }) ⟨some 0, 0⟩)
      [.writeBy stamping, .writeAfter [1, 2, 3] 5, .tick ⟨some 5, 0⟩, .read 2,
        .close, .read 2] := by
    decide +kernel
  ⟨h, (order_kept none (some { limits := {} }) ⟨some 0, 0⟩ _ h).1⟩

/-- **Overtaken.** Of 300 bytes written 256 fit the window. Timestamps are switched off, the next
byte goes past the transport, and the reader gets it ahead of the 44 that wait. -/
theorem order_broken :
    let l := [.writeAfter (List.replicate 300 1) 0, .timestamping 0, .writeAfter [2] 0,
      .read 400].foldl step toTester
    l.accepted = List.replicate 300 1 ++ [2] ∧ l.delivered = List.replicate 256 1 ++ [2]
      ∧ ¬ l.delivered <+: l.accepted := by
  decide +kernel

end Line

end Snare.Stream
