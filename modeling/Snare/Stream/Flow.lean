import Snare.Stream.Order
import Snare.Stream.Window

/-!
# The window and the bytes on their way

The invariant of a pipe that its reader empties. `Carries` ties the transport's counters to where
the bytes are: no more was transmitted than was received or is in flight, and with nothing readable
the window reaches beyond what was received. The latter is what a read re-establishes
(**`Flows.credit`**): reading all that waits gives back all the memory charged for it, and an empty
queue opens the window.

`Live` adds that a pipe with bytes waiting in its transport has bytes on their way to the reader,
since the transmit loop ends only when the window is closed or nothing waits. **`Live.apply`** says
that every action keeps it, on the condition `Fed`: each read of a pipe with a transport is made by
a socket of the code under test, charged for nothing but this pipe's bytes. For a tester the source
never gives memory back and never advertises.
-/

namespace Snare.Stream

open List

/-! ## The invariant -/

/-- The reader is charged for the chunks that wait, and beside them for error reports only. -/
structure Charged (rxMemory : List (Nat × Nat)) (chunks : List Nat) (rec : SockRec) : Prop where
  chunks : rxMemory.map Prod.fst = chunks
  memory : rec.buf.rmemAlloc ≤ (rxMemory.map Prod.snd).sum + rec.buf.errorMem

/-- What holds of the transport of a pipe with `buf` and `inFlight`, with `k` bytes in hand: sent by
it, but neither in flight nor arrived. -/
structure Carries (buf : List UInt8) (inFlight : List Flight) (k : Nat) (t : TcpTransport) :
    Prop where
  sound : t.Sound
  current : t.Current
  fits : ∀ f ∈ inFlight, f.mss ≤ t.threshold
  balance : t.transmitted ≤ t.received + (inFlight.flatMap Flight.bytes).length + k
  opens : buf = [] → t.received < t.windowEnd

namespace Carries

variable {t t' : TcpTransport} {buf buf' : List UInt8}
  {inFlight rest : List Flight} {k len mss : Nat}

theorem weaken (h : Carries buf inFlight 0 t) (k : Nat) : Carries buf inFlight k t :=
  { h with balance := h.balance.trans (Nat.le_add_right _ _) }

theorem arrive (h : Carries buf inFlight len t) (memory head : Nat) (hmss : mss ≤ t.threshold)
    (hbuf : buf' ≠ []) : Carries buf' inFlight 0 (t.arrive len mss memory head) := by
  obtain ⟨hreceived, htransmitted, -, hthreshold⟩ := t.arrive_counters len mss memory head
  have hbalance := h.balance
  exact {
    sound := h.sound.arrive _ _ _ hmss
    current := t.arrive_current _ _ _ _
    fits := fun f hf => (h.fits f hf).trans hthreshold
    balance := by omega
    opens := fun hnil => absurd hnil hbuf }

theorem takeOff {flight : Flight} (h : Carries buf inFlight flight.bytes.length t)
    (hmss : flight.mss ≤ t.threshold) : Carries buf (inFlight ++ [flight]) 0 t := by
  refine { h with fits := ?_, balance := ?_ }
  · intro f hf
    rcases mem_append.mp hf with hf | hf
    · exact h.fits f hf
    · rwa [mem_singleton.mp hf]
  · have hbalance := h.balance
    simp only [flatMap_append, flatMap_cons, flatMap_nil, length_append,
      append_nil]
    omega

theorem pop {flight : Flight} (h : Carries buf (flight :: rest) 0 t) :
    Carries buf rest flight.bytes.length t := by
  refine { h with fits := fun f hf => h.fits f (mem_cons_of_mem _ hf), balance := ?_ }
  have hbalance := h.balance
  simp only [flatMap_cons, length_append] at hbalance
  omega

theorem cut {seg : Segment} (h : Carries buf inFlight 0 t) (hnext : t.next = some (t', seg)) :
    Carries buf inFlight seg.bytes.length t' := by
  obtain ⟨-, -, hmss, htransmitted, -⟩ := TcpTransport.next_spec hnext
  obtain ⟨hreceived, hend, hthreshold, hadvertised⟩ := TcpTransport.next_counters hnext
  have hbalance := h.balance
  have hcurrent := h.current
  exact {
    sound := h.sound.next hnext
    current := by rw [TcpTransport.Current, hadvertised, hend, hreceived, hcurrent]
    fits := by rw [hthreshold]; exact h.fits
    balance := by omega
    opens := by rw [hreceived, hend]; exact h.opens }

theorem window_open (h : Carries buf inFlight 0 t) (hbuf : buf = [])
    (hidle : inFlight.flatMap Flight.bytes = []) : t.transmitted < t.windowEnd := by
  have hopens := h.opens hbuf
  have hbalance := h.balance
  rw [hidle, length_nil] at hbalance
  omega

end Carries

namespace Pipe

/-- The invariant of a pipe with `k` transmitted bytes in hand. -/
structure Flows (k : Nat) (p : Pipe) : Prop where
  ends : p.ends.isSome
  positive : ∀ n ∈ p.chunks, 0 < n
  chunks : p.chunks.sum = p.buf.length
  reader : ∀ rec, p.reader = some rec → Charged p.rxMemory p.chunks rec
  plain : p.transport = none → ∀ f ∈ p.inFlight, f.mss = 0
  transport : ∀ t, p.transport = some t → Carries p.buf p.inFlight k t

/-- A segment size that goes with the pipe's transport, or with having none. -/
def Fits (p : Pipe) (mss : Nat) : Prop :=
  (p.transport = none → mss = 0) ∧ ∀ t, p.transport = some t → mss ≤ t.threshold

variable {p : Pipe} {k : Nat} {now : Clocks}

theorem Flows.weaken (h : p.Flows 0) (k : Nat) : p.Flows k :=
  { h with transport := fun t ht => (h.transport t ht).weaken k }

/-! ## Arrivals -/

theorem takeTcp_memory (b : SockBuf) (len : Nat) :
    (b.takeTcp len).1.rmemAlloc ≤ b.rmemAlloc + (b.takeTcp len).2 := Nat.min_le_left _ _

theorem charge_reader {ends : Ends} {len : Nat} {rec' : SockRec}
    (h : (p.charge ends len).reader = some rec') :
    ∃ rec, p.reader = some rec ∧ rec'.buf.errorMem = rec.buf.errorMem
      ∧ rec'.buf.rmemAlloc ≤ rec.buf.rmemAlloc + (p.charge ends len).charge := by
  unfold charge at h ⊢
  cases hreader : p.reader with
  | none => simp [hreader] at h
  | some rec =>
    simp only [hreader, Option.some.injEq] at h ⊢
    subst h
    exact ⟨rec, rfl, rfl, takeTcp_memory rec.buf len⟩

variable {bytes : List UInt8}

theorem Flows.arrive {mss : Nat} (h : p.Flows bytes.length)
    (hmss : p.Fits mss) : (p.arrive bytes mss).Flows 0 := by
  unfold Pipe.arrive
  split
  · next hempty => simpa [hempty] using h
  · next hbytes =>
    obtain ⟨ends, hends⟩ := Option.isSome_iff_exists.mp h.ends
    have hlen := length_pos_iff.mpr hbytes
    split
    · next hnone => simp [hends] at hnone
    · next ends' _ =>
      refine ⟨h.ends, ?_, ?_, ?_, ?_, ?_⟩
      · intro n hn
        rcases mem_append.mp hn with hn | hn
        · exact h.positive n hn
        · rwa [mem_singleton.mp hn]
      · simp [h.chunks]
      · intro rec' hrec'
        obtain ⟨rec, hrec, herror, hmemory⟩ := charge_reader hrec'
        have hcharged := h.reader rec hrec
        have hbefore := hcharged.memory
        refine ⟨by simp [hcharged.chunks], ?_⟩
        simp only [map_append, map_cons, map_nil, sum_append, sum_cons,
          sum_nil, herror]
        omega
      · intro hnone
        exact h.plain (Option.map_eq_none_iff.mp hnone)
      · intro t' ht'
        obtain ⟨t, ht, rfl⟩ := Option.map_eq_some_iff.mp ht'
        exact (h.transport t ht).arrive _ _ (hmss.2 t ht) (by simp [hbytes])

/-! ## Sending and landing -/

theorem Flows.launch {mss : Nat} (h : p.Flows bytes.length)
    (hmss : p.Fits mss) (now : Clocks) (delay : Nat) : (p.launch now delay bytes mss).Flows 0 := by
  unfold Pipe.launch
  split
  · exact h.arrive hmss
  · refine { h with plain := ?_, transport := fun t ht => (h.transport t ht).takeOff (hmss.2 t ht) }
    intro hnone f hf
    rcases mem_append.mp hf with hf | hf
    · exact h.plain hnone f hf
    · rw [mem_singleton.mp hf]
      exact hmss.1 hnone

theorem Flows.cut {t t' : TcpTransport} {seg : Segment} (h : p.Flows 0) (ht : p.transport = some t)
    (hnext : t.next = some (t', seg)) : Flows seg.bytes.length { p with transport := some t' } ∧
      Fits { p with transport := some t' } seg.mss := by
  have hcarries := h.transport t ht
  constructor
  · refine { h with plain := nofun, transport := ?_ }
    rintro _ ⟨⟩
    exact hcarries.cut hnext
  · refine ⟨nofun, ?_⟩
    rintro _ ⟨⟩
    obtain ⟨-, -, hmss, -⟩ := TcpTransport.next_spec hnext
    obtain ⟨-, -, hthreshold, -⟩ := TcpTransport.next_counters hnext
    rw [hmss, hthreshold]
    exact hcarries.sound.packetMss_le

theorem Flows.transmit (h : p.Flows 0) (now : Clocks) : (p.transmit now).Flows 0 := by
  refine transmit_induction (P := Flows 0) now ?_ h
  intro q t t' seg hq ht hnext
  obtain ⟨hcut, hfits⟩ := hq.cut ht hnext
  exact hcut.launch hfits now _

theorem Flows.pop {flight : Flight} {rest : List Flight} (h : p.Flows 0)
    (hflights : p.inFlight = flight :: rest) :
    Flows flight.bytes.length { p with inFlight := rest } ∧
      Fits { p with inFlight := rest } flight.mss := by
  have hmem : flight ∈ p.inFlight := by simp [hflights]
  constructor
  · refine { h with plain := ?_, transport := fun t ht => (hflights ▸ h.transport t ht).pop }
    intro hnone f hf
    exact h.plain hnone f (by simp [hflights, hf])
  · exact ⟨fun hnone => h.plain hnone flight hmem, fun t ht => (h.transport t ht).fits flight hmem⟩

theorem Flows.landFlights (h : p.Flows 0) (now : Clocks) : (p.landFlights now).Flows 0 := by
  refine landFlights_induction (P := Flows 0) now ?_ h
  intro q flight rest hq hflights
  obtain ⟨hpop, hfits⟩ := hq.pop hflights
  exact hpop.arrive hfits

/-! ## Never stuck -/

/-- A pipe with bytes waiting in its transport has bytes on their way to the reader. -/
structure Live (p : Pipe) : Prop extends p.Flows 0 where
  idle : p.sent = [] → p.backlog = []

theorem transmit_done (p : Pipe) (now : Clocks) :
    (p.transmit now).transport.bind TcpTransport.next = none := by
  fun_induction transmit p now with
  | case1 p hnext => exact hnext
  | case2 p t seg hnext ih => exact ih

theorem Flows.live_of_done (h : p.Flows 0) (hdone : p.transport.bind TcpTransport.next = none) :
    p.Live := by
  refine ⟨h, fun hsent => ?_⟩
  obtain ⟨hbuf, hcrossing⟩ := append_eq_nil_iff.mp hsent
  unfold backlog
  cases htransport : p.transport with
  | none => rfl
  | some t =>
    have hopen := (h.transport t htransport).window_open hbuf hcrossing
    rw [htransport, Option.bind_some, TcpTransport.next_eq_none] at hdone
    exact hdone.resolve_left (by omega)

theorem Flows.transmit_live (h : p.Flows 0) (now : Clocks) : (p.transmit now).Live :=
  (h.transmit now).live_of_done (p.transmit_done now)

theorem Flows.live_of_sent (h : p.Flows 0) (hsent : p.sent ≠ []) : p.Live :=
  ⟨h, fun hnil => absurd hnil hsent⟩

theorem Live.land (h : p.Live) (now : Clocks) : (p.land now).Live :=
  land_cases h ((h.toFlows.landFlights now).transmit_live now)

/-! ## Reading -/

theorem giveBack_fst (n : Nat) (rx : List (Nat × Nat)) :
    (giveBack n rx).2.map Prod.fst = dropChunks n (rx.map Prod.fst) := by
  induction rx generalizing n with
  | nil => simp [giveBack, dropChunks]
  | cons e rest ih =>
    simp only [giveBack, map_cons, dropChunks]
    split
    · rfl
    · split
      · exact ih _
      · rfl

theorem giveBack_snd (n : Nat) (rx : List (Nat × Nat)) :
    (giveBack n rx).1 + ((giveBack n rx).2.map Prod.snd).sum = (rx.map Prod.snd).sum := by
  induction rx generalizing n with
  | nil => simp [giveBack]
  | cons e rest ih =>
    simp only [giveBack, map_cons, sum_cons]
    split
    · simp
    · split
      · have := ih (n - e.1)
        dsimp only
        omega
      · simp

variable {n : Nat}

theorem dropChunks_sum {chunks : List Nat} (h : n ≤ chunks.sum) :
    (dropChunks n chunks).sum = chunks.sum - n := by
  induction chunks generalizing n with
  | nil => simp_all [dropChunks]
  | cons front rest ih =>
    simp only [dropChunks, sum_cons] at h ⊢
    split
    · simp_all
    · split
      · rw [ih (by omega)]
        omega
      · simp only [sum_cons]
        omega

theorem dropChunks_pos {chunks : List Nat} (h : ∀ c ∈ chunks, 0 < c) :
    ∀ c ∈ dropChunks n chunks, 0 < c := by
  induction chunks generalizing n with
  | nil => simp [dropChunks]
  | cons front rest ih =>
    have hrest : ∀ c ∈ rest, 0 < c := fun c hc => h c (mem_cons_of_mem _ hc)
    simp only [dropChunks]
    split
    · exact h
    · split
      · exact ih hrest
      · intro c hc
        rcases mem_cons.mp hc with rfl | hc
        · omega
        · exact hrest c hc

theorem giveBack_all {rx : List (Nat × Nat)} (hpos : ∀ c ∈ rx.map Prod.fst, 0 < c)
    (h : n = (rx.map Prod.fst).sum) : (giveBack n rx).1 = (rx.map Prod.snd).sum := by
  have hsum : (dropChunks n (rx.map Prod.fst)).sum = 0 := by
    rw [dropChunks_sum h.le]
    omega
  have hnil : (giveBack n rx).2 = [] := by
    rw [← map_eq_nil_iff (f := Prod.fst), giveBack_fst]
    rw [eq_nil_iff_forall_not_mem]
    intro c hc
    have hzero := List.sum_eq_zero_iff_forall_eq_nat.mp hsum c hc
    have := dropChunks_pos hpos c hc
    omega
  have hsnd := giveBack_snd n rx
  rw [hnil] at hsnd
  simpa using hsnd

/-- Reading `n` of the bytes that wait, with their memory given back. When nothing else is charged,
reading all of them opens the window. -/
theorem Flows.credit {rec : SockRec} (h : p.Flows 0) (hrec : p.reader = some rec)
    (herror : p.transport = none ∨ rec.buf.errorMem = 0) (hn : n ≤ p.buf.length) :
    ((p.drain n).credit rec n).Flows 0 := by
  have hcharged := h.reader rec hrec
  have hsnd := giveBack_snd n p.rxMemory
  have hmemory := hcharged.memory
  refine ⟨h.ends, dropChunks_pos h.positive, ?_, ?_, ?_, ?_⟩
  · show (dropChunks n p.chunks).sum = (p.buf.drop n).length
    rw [dropChunks_sum (by rwa [h.chunks]), h.chunks, length_drop]
  · rintro _ ⟨⟩
    refine ⟨?_, ?_⟩
    · show (giveBack n p.rxMemory).2.map Prod.fst = dropChunks n p.chunks
      rw [giveBack_fst, hcharged.chunks]
    · show rec.buf.rmemAlloc - (giveBack n p.rxMemory).1
        ≤ ((giveBack n p.rxMemory).2.map Prod.snd).sum + rec.buf.errorMem
      omega
  · intro hnone
    exact h.plain (Option.map_eq_none_iff.mp hnone)
  · intro t' ht'
    obtain ⟨t, ht, rfl⟩ := Option.map_eq_some_iff.mp ht'
    replace ht : p.transport = some t := ht
    have hcarries := h.transport t ht
    refine { hcarries with
      sound := hcarries.sound.advertise _
      current := rfl
      opens := fun hempty => ?_ }
    -- all that waited was read, so every charge is given back
    have hall : n = p.buf.length := Nat.le_antisymm hn (drop_eq_nil_iff.mp hempty)
    have hreturned : (giveBack n p.rxMemory).1 = (p.rxMemory.map Prod.snd).sum := by
      apply giveBack_all
      · rw [hcharged.chunks]
        exact h.positive
      · rw [hcharged.chunks, h.chunks, hall]
    have hzero : rec.buf.errorMem = 0 := herror.resolve_left (by rw [ht]; exact nofun)
    have hfree : rec.buf.rmemAlloc - (giveBack n p.rxMemory).1 = 0 := by omega
    show t.received < (t.advertise (rec.buf.rmemAlloc - (giveBack n p.rxMemory).1)).windowEnd
    rw [hfree]
    exact hcarries.sound.advertise_opens hcarries.current

/-- A read of the pipe gives back what it frees: its reader is a socket with no error reports
queued, or there is no transport yet. -/
def Drains (p : Pipe) : Prop := p.transport.isNone ∨ (p.reader.isSome ∧ p.errorMem = 0)

instance (p : Pipe) : Decidable p.Drains := inferInstanceAs (Decidable (_ ∨ _))

theorem Drains.of_setting {q : Pipe} (h : p.Drains) (hsame : SameSetting p q) : q.Drains := by
  unfold Drains at h ⊢
  rwa [hsame.reader, hsame.errorMem, ← Option.not_isSome, hsame.transport, Option.not_isSome]

theorem Flows.release_live (h : p.Flows 0) (hdrains : p.Drains) (now : Clocks)
    (hn : n ≤ p.buf.length) : ((p.drain n).release now n).Live := by
  unfold Pipe.release
  split
  · -- nobody to charge: then there is no transport either
    next hnone =>
    replace hnone : p.reader = none := hnone
    have htransport : p.transport = none := by
      rcases hdrains with htransport | ⟨hsome, -⟩
      · simpa using htransport
      · simp [hnone] at hsome
    have hflows : (p.drain n).Flows 0 := by
      refine { h with
        positive := dropChunks_pos h.positive, chunks := ?_, reader := ?_, transport := ?_ }
      · show (dropChunks n p.chunks).sum = (p.buf.drop n).length
        rw [dropChunks_sum (by rwa [h.chunks]), h.chunks, length_drop]
      · intro rec hrec
        exact absurd (hnone.symm.trans hrec) nofun
      · intro t ht
        exact absurd (htransport.symm.trans ht) nofun
    refine ⟨hflows, fun _ => ?_⟩
    show p.transport.elim [] _ = []
    rw [htransport]
    rfl
  · next rec hrec =>
    replace hrec : p.reader = some rec := hrec
    refine (h.credit hrec ?_ hn).transmit_live now
    rcases hdrains with htransport | ⟨-, herror⟩
    · exact .inl (by simpa using htransport)
    · exact .inr (by simpa [errorMem, hrec] using herror)

theorem Live.readChunk (h : p.Live) (hdrains : p.Drains) (now : Clocks) (len : Nat) :
    (p.readChunk now len).1.Live := by
  have hland := h.land now
  unfold Pipe.readChunk
  dsimp only
  split
  · exact hland
  · refine hland.toFlows.release_live (hdrains.of_setting (p.land_setting now)) now ?_
    rw [length_take]
    exact Nat.min_le_right _ _

theorem Live.read (h : p.Live) (hdrains : p.Drains) (now : Clocks) (len : Nat) :
    (p.read now len).1.Live := by
  have hstep : ∀ (q : Pipe) (len : Nat), q.Live ∧ q.Drains →
      (q.readChunk now len).1.Live ∧ (q.readChunk now len).1.Drains := by
    intro q len hq
    exact ⟨hq.1.readChunk hq.2 now len, hq.2.of_setting (q.readChunk_setting now len)⟩
  exact (readLoop_induction (hstep p len ⟨h, hdrains⟩) hstep []).1

/-! ## Writing -/

theorem Flows.openTransport (h : p.Flows 0)
    (hbuffer : p.transport.isSome ∨ TcpTransport.Fits p.transportBuffer) (delay : Nat) :
    Flows 0 { p with transport := some p.openTransport, transportDelay := delay } := by
  refine { h with plain := nofun, transport := ?_ }
  rintro _ ⟨⟩
  cases htransport : p.transport with
  | some t =>
    have hcarries := h.transport t htransport
    simpa [Pipe.openTransport, htransport] using hcarries
  | none =>
    have hbuffer : TcpTransport.Fits p.transportBuffer := by simpa [htransport] using hbuffer
    simp only [Pipe.openTransport, htransport, Option.getD_none]
    exact {
      sound := TcpTransport.new_sound hbuffer _ _ _
      current := TcpTransport.new_current _ _ _ _
      fits := fun f hf => by simp [h.plain htransport f hf]
      balance := Nat.zero_le _
      opens := fun _ => TcpTransport.new_opens hbuffer.1 _ _ _ }

theorem Flows.writeTransport_live (h : p.Flows 0)
    (hbuffer : p.transport.isSome ∨ TcpTransport.Fits p.transportBuffer) (now : Clocks)
    (hbytes : bytes ≠ []) (delay : Nat) : (p.writeTransport now bytes delay).Live := by
  have hopen := h.openTransport hbuffer delay
  have hcarries := hopen.transport _ rfl
  unfold Pipe.writeTransport
  dsimp only
  split
  · -- straight through, to the readable bytes
    next t mss hdirect =>
    have hdirect : p.openTransport.direct bytes.length = some (t, mss) := by
      simpa using (show _ ∧ _ by simpa using hdirect).2
    obtain ⟨-, -, rfl, rfl⟩ := TcpTransport.direct_spec hdirect
    refine Flows.live_of_sent (Flows.arrive ?_ ⟨by simp, ?_⟩) (by simp [sent, arrive_buf, hbytes])
    · refine { hopen with plain := by simp, transport := ?_ }
      rintro _ ⟨⟩
      exact { hcarries with
        sound := { hcarries.sound with }
        balance := Nat.add_le_add_right hcarries.balance _ }
    · rintro _ ⟨⟩
      exact hcarries.sound.mss_le
  · have hpush : Flows 0
        { p with transport := some (p.openTransport.push bytes), transportDelay := delay } := by
      refine { hopen with plain := by simp, transport := ?_ }
      rintro _ ⟨⟩
      exact { hcarries with sound := { hcarries.sound with } }
    exact hpush.transmit_live now

theorem Live.writeAfter (h : p.Live) (bytes : List UInt8)
    (hbuffer : p.transport.isSome ∨ p.throughTransport = false ∨
      TcpTransport.Fits p.transportBuffer)
    (now : Clocks) (delay : Nat) : (p.writeAfter now bytes delay).1.Live := by
  unfold Pipe.writeAfter
  split
  · exact h
  · dsimp only
    split
    · exact h
    · next hn =>
      have htake : bytes.take (p.accepts bytes) ≠ [] := by
        intro hnil
        rcases take_eq_nil_iff.mp hnil with hzero | rfl
        · exact hn hzero
        · exact hn (Nat.le_zero.mp (p.accepts_le []))
      split
      · next hthrough =>
        exact h.toFlows.writeTransport_live (by simpa [hthrough] using hbuffer) now htake delay
      · refine Flows.live_of_sent ?_ (by rw [launch_sent]; simp [htake])
        exact (h.toFlows.weaken _).launch ⟨fun _ => rfl, fun t ht => Nat.zero_le _⟩ now delay

/-! ## A reader joins -/

theorem takeChunks_memory (chunks : List Nat) (b : SockBuf) :
    (b.takeChunks chunks).1.errorMem = b.errorMem ∧ (b.takeChunks chunks).2.map Prod.fst = chunks
      ∧ (b.takeChunks chunks).1.rmemAlloc
        ≤ b.rmemAlloc + ((b.takeChunks chunks).2.map Prod.snd).sum := by
  induction chunks generalizing b with
  | nil => simp [SockBuf.takeChunks]
  | cons len chunks ih =>
    obtain ⟨herror, hchunks, hmemory⟩ := ih (b.takeTcp len).1
    have htake := takeTcp_memory b len
    simp only [SockBuf.takeChunks, map_cons, hchunks, sum_cons]
    refine ⟨herror, trivial, ?_⟩
    omega

theorem Live.readBy {rec : SockRec} (h : p.Live) (hrec : rec.buf.rmemAlloc ≤ rec.buf.errorMem) :
    (p.readBy rec).Live := by
  unfold Pipe.readBy
  split
  · exact h
  · rw [if_pos h.ends]
    obtain ⟨herror, hchunks, hmemory⟩ := takeChunks_memory p.chunks rec.buf
    refine { h with reader := ?_ }
    rintro _ ⟨⟩
    exact ⟨hchunks, by dsimp only; omega⟩

theorem Live.mapReader (h : p.Live) {f : SockBuf → SockBuf}
    (hf : ∀ b held, b.rmemAlloc ≤ held + b.errorMem → (f b).rmemAlloc ≤ held + (f b).errorMem) :
    Live { p with reader := p.reader.map (.mapBuf f) } := by
  refine { h with reader := ?_ }
  intro rec' hrec'
  obtain ⟨rec, hrec, rfl⟩ := Option.map_eq_some_iff.mp hrec'
  have hcharged := h.reader rec hrec
  exact ⟨hcharged.chunks, hf rec.buf _ hcharged.memory⟩

end Pipe

/-! ## One action -/

def Op.reads : Op → Bool
  | .read _ => true
  | _ => false

def Op.writes : Op → Bool
  | .writeAfter _ _ => true
  | _ => false

def Op.attached : Op → Option SockRec
  | .readBy rec => some rec
  | _ => none

namespace Pipe

variable {p : Pipe} {now : Clocks}

/-- What keeps a pipe from stalling: each read gives back what it frees, a transport's buffer has at
least 256 bytes and its shares do not wrap, and a new reader is charged for error reports only. -/
structure Fed (p : Pipe) (op : Op) : Prop where
  reads : op.reads → p.Drains
  writes : op.writes →
    p.transport.isSome ∨ p.throughTransport = false ∨ TcpTransport.Fits p.transportBuffer
  attached : op.attached.all fun rec => rec.buf.rmemAlloc ≤ rec.buf.errorMem

instance (p : Pipe) (op : Op) : Decidable (p.Fed op) :=
  decidable_of_iff
    ((op.reads → p.Drains)
      ∧ (op.writes →
        p.transport.isSome ∨ p.throughTransport = false ∨ TcpTransport.Fits p.transportBuffer)
      ∧ op.attached.all fun rec => rec.buf.rmemAlloc ≤ rec.buf.errorMem)
    ⟨fun ⟨h₁, h₂, h₃⟩ => ⟨h₁, h₂, h₃⟩, fun ⟨h₁, h₂, h₃⟩ => ⟨h₁, h₂, h₃⟩⟩

/-- **No action gets a pipe stuck.** -/
theorem Live.apply {op : Op} (h : p.Live) (hop : p.Fed op) : (p.apply now op).1.Live := by
  cases op with
  | writeAfter bytes delay => exact h.writeAfter bytes (hop.writes rfl) now delay
  | land => exact h.land now
  | read len => exact h.read (hop.reads rfl) now len
  | peek len => exact h.land now
  | reset =>
    have hreset : Live { p with reset := true, closed := true } := { h with }
    exact hreset.land now
  | stall | recvWindow => exact { h with ends := by simpa [Pipe.apply] using h.ends }
  | readBy rec => exact h.readBy (by simpa [Op.attached] using hop.attached)
  | setRcvbuf value => exact h.mapReader fun b held hb => hb
  | admitError charge =>
    refine h.mapReader fun b held hb => ?_
    unfold SockBuf.admitError
    split
    · exact hb
    · dsimp only
      omega
  | consumeError charge =>
    refine h.mapReader fun b held hb => ?_
    simp only [SockBuf.consumeError]
    omega
  | close | shutRead | link | timestamping | writeBy | pendingReader | setMtu | setSndbuf | tick =>
    exact { h with }

end Pipe

end Snare.Stream
