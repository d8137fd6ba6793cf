import Snare.Stream.Hosts
import Snare.Stream.Flow

/-!
# A pipe's books

Three queues of a pipe are consumed at different grains: the bytes of `buf`, the sizes in `chunks`,
and on Linux the charged segments in `rx_memory`.

* **`Booked`**: the sizes sum to the bytes, and what is in flight is due in the order it was sent:
  kept by every function of every build;
* **`Kept`**: with a reader on a pipe that has addresses, `rx_memory` lists the chunks, and the
  socket's memory is what its charges sum to, capped where the counter saturates. Arrivals keep the
  capped sum, but giving memory back to a saturated counter loses it; so a read is asked to be
  `Light`, which bounds what can be charged while it runs.
-/

namespace Snare.Stream

open List

theorem le_foldl_later (ds : List Deadline) (first : Deadline) : first.instant ≤ (ds.foldl
        (fun at_ later => if later.instant > at_.instant then later else at_) first).instant
      ∧ ∀ d ∈ ds, d.instant ≤ (ds.foldl
        (fun at_ later => if later.instant > at_.instant then later else at_) first).instant := by
  induction ds generalizing first with
  | nil => simp
  | cons d ds ih =>
    obtain ⟨hfirst, hrest⟩ := ih (if d.instant > first.instant then d else first)
    have hstart : first.instant ≤ (if d.instant > first.instant then d else first).instant
        ∧ d.instant ≤ (if d.instant > first.instant then d else first).instant := by
      split <;> omega
    refine ⟨hstart.1.trans hfirst, ?_⟩
    intro d' hd'
    rcases mem_cons.mp hd' with rfl | hd'
    · exact hstart.2.trans hfirst
    · exact hrest d' hd'

def InTurn (flights : List Flight) : Prop :=
  flights.Pairwise fun f g => f.at_.instant ≤ g.at_.instant

theorem InTurn.concat {flights : List Flight} {flight : Flight} (h : InTurn flights)
    (hlast : ∀ d ∈ (flights.getLast?.map Flight.at_).toList, d.instant ≤ flight.at_.instant) :
    InTurn (flights ++ [flight]) := by
  refine pairwise_append.mpr ⟨h, pairwise_singleton _ _, ?_⟩
  intro f hf g hg
  rw [mem_singleton.mp hg]
  have hne : flights ≠ [] := ne_nil_of_mem hf
  have hle : (flights.getLast hne).at_.instant ≤ flight.at_.instant :=
    hlast _ (by simp [getLast?_eq_getLast_of_ne_nil hne])
  exact (h.rel_getLast_of_rel_getLast_getLast hf (Nat.le_refl _)).trans hle

namespace Pipe

variable {p : Pipe} {now : Clocks} {counted : Prop} {other : Nat}

/-! ## The books -/

structure Booked (p : Pipe) : Prop where
  chunks : p.chunks.sum = p.buf.length
  inTurn : InTurn p.inFlight

/-- The reader is charged for the chunks that wait, beside `other`; the counter saturates. -/
structure Listed (counted : Prop) (other : Nat) (rxMemory : List (Nat × Nat)) (chunks : List Nat)
    (rec : SockRec) : Prop where
  chunks : rxMemory.map Prod.fst = chunks
  memory : counted → rec.buf.rmemAlloc = min (other + (rxMemory.map Prod.snd).sum) u64Max

/-- The books of a pipe on Linux. With `counted` they include the memory, for what is so counted. -/
structure Kept (counted : Prop) (other : Nat) (p : Pipe) : Prop extends p.Booked where
  reader : ∀ rec, p.reader = some rec → p.ends.isSome → Listed counted other p.rxMemory p.chunks rec

/-! ## Arrivals and flights -/

theorem charge_memory {ends : Ends} {len : Nat} {rec' : SockRec}
    (h : (p.charge ends len).reader = some rec') :
    ∃ rec, p.reader = some rec ∧ rec'.buf.skb = rec.buf.skb
      ∧ (p.charge ends len).charge = satAdd rec.buf.skb.1 len
      ∧ rec'.buf.rmemAlloc = satAdd rec.buf.rmemAlloc (p.charge ends len).charge := by
  unfold charge at h ⊢
  cases hreader : p.reader with
  | none => simp [hreader] at h
  | some rec =>
    simp only [hreader, Option.some.injEq] at h ⊢
    subst h
    exact ⟨rec, rfl, rfl, rfl, rfl⟩

theorem Kept.arrive (h : p.Kept counted other) (bytes : List UInt8) (mss : Nat) :
    (p.arrive bytes mss).Kept counted other := by
  unfold Pipe.arrive
  split
  · exact h
  · split
    · next hends =>
      refine ⟨⟨by simp [h.chunks], h.inTurn⟩, fun rec _ hsome => ?_⟩
      simp [hends] at hsome
    · next ends hends =>
      refine ⟨⟨by simp [h.chunks], h.inTurn⟩, fun rec' hrec' _ => ?_⟩
      obtain ⟨rec, hrec, -, -, hmemory⟩ := charge_memory hrec'
      have hlisted := h.reader rec hrec (by simp [hends])
      refine ⟨by simp [hlisted.chunks], fun hcounted => ?_⟩
      rw [hmemory, hlisted.memory hcounted]
      simp only [satAdd, map_append, map_cons, map_nil, sum_append,
        sum_cons, sum_nil]
      omega

theorem le_arrival (p : Pipe) (now : Clocks) (delay : Nat) :
    ∀ d ∈ (p.inFlight.getLast?.map Flight.at_).toList, d.instant ≤ (p.arrival now delay).instant :=
  fun d hd => (le_foldl_later _ _).2 d (mem_append_left _ hd)

section

variable (h : p.Kept counted other)
include h

theorem Kept.launch (now : Clocks) (delay : Nat) (bytes : List UInt8)
    (mss : Nat) : (p.launch now delay bytes mss).Kept counted other := by
  unfold Pipe.launch
  split
  · exact h.arrive bytes mss
  · exact { h with inTurn := h.inTurn.concat (p.le_arrival now delay) }

theorem Kept.transmit (now : Clocks) : (p.transmit now).Kept counted other := by
  refine transmit_induction (P := Kept counted other) now ?_ h
  intro q t t' seg hq _ _
  have hcut : Kept counted other { q with transport := some t' } := { hq with }
  exact hcut.launch now _ _ _

theorem Kept.landFlights (now : Clocks) : (p.landFlights now).Kept counted other := by
  refine landFlights_induction (P := Kept counted other) now ?_ h
  intro q flight rest hq hflights
  have hpop : Kept counted other { q with inFlight := rest } :=
    { hq with inTurn := (pairwise_cons.mp (hflights ▸ hq.inTurn)).2 }
  exact hpop.arrive _ _

theorem Kept.land (now : Clocks) : (p.land now).Kept counted other :=
  land_cases h ((h.landFlights now).transmit now)

theorem Kept.writeAfter (now : Clocks) (bytes : List UInt8)
    (delay : Nat) : (p.writeAfter now bytes delay).1.Kept counted other := by
  unfold Pipe.writeAfter
  split
  · exact h
  · dsimp only
    split
    · exact h
    · split
      · unfold writeTransport
        dsimp only
        split
        · next t mss _ =>
          have hopen : Kept counted other { p with transport := some t, transportDelay := delay } :=
            { h with }
          exact hopen.arrive _ _
        · next =>
          refine Kept.transmit ?_ now
          exact { h with }
      · exact h.launch now delay _ _

end

/-! ## What a read can be charged for

A read gives memory back and lets further bytes arrive, which are charged in turn. `load` bounds the
charges at any moment of it. -/

/-- The charges listed, and a segment's charge for each byte that has yet to arrive, `k` bytes in
hand among them. -/
def load (p : Pipe) (k : Nat) (rec : SockRec) : Nat :=
  (p.rxMemory.map Prod.snd).sum
    + (rec.buf.skb.1 + 1) * (p.crossing.length + p.backlog.length + k)

/-- The counter cannot saturate before all that is on its way has arrived. -/
def Light (other k : Nat) (p : Pipe) : Prop :=
  ∀ rec, p.reader = some rec → other + p.load k rec ≤ u64Max

instance (other k : Nat) (p : Pipe) : Decidable (p.Light other k) :=
  decidable_of_iff (∀ rec ∈ p.reader, other + p.load k rec ≤ u64Max) Iff.rfl

variable {rec : SockRec}

theorem Light.sum_le (h : p.Light other 0) (hrec : p.reader = some rec) :
    other + (p.rxMemory.map Prod.snd).sum ≤ u64Max :=
  le_trans (Nat.add_le_add_left (Nat.le_add_right _ _) other) (h rec hrec)

theorem Light.move {q : Pipe} {k k' : Nat} (h : p.Light other k) (hreader : q.reader = p.reader)
    (hrx : q.rxMemory = p.rxMemory) (hbytes : q.crossing.length + q.backlog.length + k'
      = p.crossing.length + p.backlog.length + k) : q.Light other k' := by
  intro rec hrec
  rw [load, hrx, hbytes]
  exact h rec (hreader ▸ hrec)

theorem Light.arrive {bytes : List UInt8} (h : p.Light other bytes.length) (mss : Nat) :
    (p.arrive bytes mss).Light other 0 := by
  have hcrossing := p.arrive_crossing bytes mss
  have hbacklog := p.arrive_backlog bytes mss
  intro rec' hrec'
  simp only [load, hcrossing, hbacklog]
  unfold Pipe.arrive at hrec' ⊢
  split at hrec'
  · next hempty =>
    rw [if_pos hempty]
    exact (h rec' hrec').trans' (Nat.add_le_add_left (Nat.add_le_add_left
      (Nat.mul_le_mul_left _ (Nat.le_add_right _ _)) _) _)
  · next hbytes =>
    rw [if_neg hbytes]
    have hlen : 1 ≤ bytes.length := length_pos_iff.mpr hbytes
    split at hrec'
    · next hends =>
      have hle := h rec' hrec'
      simp only [load, Nat.mul_add] at hle ⊢
      omega
    · next ends hends =>
      obtain ⟨rec, hrec, hskb, hcharge, -⟩ := charge_memory hrec'
      have hle := h rec hrec
      -- a segment of at least one byte costs no more than a segment for each of its bytes
      have hseg : (p.charge ends bytes.length).charge ≤ (rec.buf.skb.1 + 1) * bytes.length := by
        rw [hcharge, Nat.add_mul, Nat.one_mul]
        exact (Nat.min_le_left _ _).trans
          (Nat.add_le_add_right (Nat.le_mul_of_pos_right _ hlen) _)
      simp only [load, hskb, Nat.mul_add, map_append, map_cons, map_nil,
        sum_append, sum_cons, sum_nil] at hle ⊢
      omega

theorem Light.launch {bytes : List UInt8} (h : p.Light other bytes.length) (now : Clocks)
    (delay mss : Nat) : (p.launch now delay bytes mss).Light other 0 := by
  unfold Pipe.launch
  split
  · exact h.arrive mss
  · refine h.move rfl rfl ?_
    simp only [crossing, backlog, flatMap_append, flatMap_singleton, length_append]
    omega

section

variable (h : p.Light other 0)
include h

theorem Light.transmit (now : Clocks) : (p.transmit now).Light other 0 := by
  refine transmit_induction (P := Light other 0) now ?_ h
  intro q t t' seg hq ht hnext
  obtain ⟨-, hbytes, -⟩ := TcpTransport.next_spec hnext
  have hcut : Light other seg.bytes.length { q with transport := some t' } := by
    refine hq.move rfl rfl ?_
    simp only [crossing, backlog, ht, Option.elim_some, ← hbytes, length_append]
    omega
  exact hcut.launch now _ _

theorem Light.landFlights (now : Clocks) : (p.landFlights now).Light other 0 := by
  refine landFlights_induction (P := Light other 0) now ?_ h
  intro q flight rest hq hflights
  have hpop : Light other flight.bytes.length { q with inFlight := rest } := by
    refine hq.move rfl rfl ?_
    simp only [crossing, backlog, hflights, flatMap_cons, length_append]
    omega
  exact hpop.arrive _

theorem Light.land (now : Clocks) : (p.land now).Light other 0 :=
  land_cases h ((h.landFlights now).transmit now)

theorem Light.credit {rec : SockRec} (hrec : p.reader = some rec) (n : Nat) :
    (p.credit rec n).Light other 0 := by
  rintro _ ⟨⟩
  have hsnd := giveBack_snd n p.rxMemory
  have hbacklog : (p.credit rec n).backlog = p.backlog := by
    unfold Pipe.credit backlog
    cases p.transport with
    | none => rfl
    | some t => rfl
  have hle := h rec hrec
  simp only [load, hbacklog] at hle ⊢
  simp only [crossing, Pipe.credit, SockBuf.consumeTcp] at hle ⊢
  omega

end

/-! ## Reading -/

theorem Kept.credit {n : Nat} (h : p.Kept counted other)
    (hrec : p.reader = some rec) (hlight : counted → p.Light other 0) (hn : n ≤ p.buf.length) :
    ((p.drain n).credit rec n).Kept counted other := by
  refine ⟨⟨?_, h.inTurn⟩, ?_⟩
  · show (dropChunks n p.chunks).sum = (p.buf.drop n).length
    rw [dropChunks_sum (by rwa [h.chunks]), h.chunks, length_drop]
  · rintro _ ⟨⟩ hends
    have hlisted := h.reader rec hrec hends
    refine ⟨?_, fun hcounted => ?_⟩
    · show (giveBack n p.rxMemory).2.map Prod.fst = dropChunks n p.chunks
      rw [giveBack_fst, hlisted.chunks]
    · have hsnd := giveBack_snd n p.rxMemory
      have hsum := (hlight hcounted).sum_le hrec
      show rec.buf.rmemAlloc - (giveBack n p.rxMemory).1
        = min (other + ((giveBack n p.rxMemory).2.map Prod.snd).sum) u64Max
      rw [hlisted.memory hcounted]
      omega

def Reading (counted : Prop) (other : Nat) (p : Pipe) : Prop :=
  p.Kept counted other ∧ (counted → p.Light other 0)

theorem Reading.release {n : Nat} (h : p.Reading counted other) (now : Clocks)
    (hn : n ≤ p.buf.length) :
    ((p.drain n).release now n).Reading counted other := by
  unfold Pipe.release
  cases hreader : (p.drain n).reader with
  | none =>
    refine ⟨⟨⟨?_, h.1.inTurn⟩, fun rec hrec => ?_⟩, h.2⟩
    · show (dropChunks n p.chunks).sum = (p.buf.drop n).length
      rw [dropChunks_sum (by rw [h.1.chunks]; exact hn), h.1.chunks, length_drop]
    · rw [hreader] at hrec
      exact absurd hrec (by simp)
  | some rec =>
    have hlight : counted → (p.drain n).Light other 0 := h.2
    exact ⟨(h.1.credit hreader h.2 hn).transmit now,
      fun hcounted => ((hlight hcounted).credit hreader n).transmit now⟩

theorem Reading.readChunk (h : p.Reading counted other) (now : Clocks) (len : Nat) :
    (p.readChunk now len).1.Reading counted other := by
  have hland : (p.land now).Reading counted other :=
    ⟨h.1.land now, fun hcounted => (h.2 hcounted).land now⟩
  unfold Pipe.readChunk
  dsimp only
  split
  · exact hland
  · exact hland.release now (length_take_le' _ _)

theorem Kept.read (h : p.Kept counted other) (hlight : counted → p.Light other 0) (now : Clocks)
    (len : Nat) : (p.read now len).1.Kept counted other := by
  have hread : p.Reading counted other := ⟨h, hlight⟩
  exact (readLoop_induction (P := Pipe.Reading counted other) (hread.readChunk now len)
    (fun q len hq => hq.readChunk now len) []).1

/-! ## A reader joins -/

theorem takeChunks_kept (chunks : List Nat) (b : SockBuf) (hb : b.rmemAlloc ≤ u64Max) :
    (b.takeChunks chunks).1.rmemAlloc
      = min (b.rmemAlloc + ((b.takeChunks chunks).2.map Prod.snd).sum) u64Max := by
  induction chunks generalizing b with
  | nil =>
    exact (Nat.min_eq_left hb).symm
  | cons len chunks ih =>
    have htake : (b.takeTcp len).1.rmemAlloc = satAdd b.rmemAlloc (b.takeTcp len).2 := rfl
    have hrest := ih (b.takeTcp len).1 (by rw [htake]; exact satAdd_le _ _)
    simp only [SockBuf.takeChunks, map_cons, sum_cons]
    rw [hrest, htake, satAdd]
    omega

theorem Kept.readBy (h : p.Kept counted other) (hrec : rec.buf.rmemAlloc ≤ u64Max) :
    (p.readBy rec).Kept counted (if p.reader.isSome then other else rec.buf.rmemAlloc) := by
  unfold Pipe.readBy
  cases hreader : p.reader with
  | some _ => simpa using h
  | none =>
    simp only [Option.isSome_none, Bool.false_eq_true, if_false]
    split
    · refine ⟨{ h with }, ?_⟩
      rintro _ ⟨⟩ _
      exact ⟨(takeChunks_memory p.chunks rec.buf).2.1,
        fun _ => takeChunks_kept p.chunks rec.buf hrec⟩
    · next hends => exact ⟨{ h with }, fun rec _ hsome => absurd hsome hends⟩

theorem Kept.mapReader {other' : Nat} {f : SockBuf → SockBuf} (h : p.Kept counted other)
    (hf : ∀ rec, p.reader = some rec → counted →
      rec.buf.rmemAlloc = min (other + (p.rxMemory.map Prod.snd).sum) u64Max →
      (f rec.buf).rmemAlloc = min (other' + (p.rxMemory.map Prod.snd).sum) u64Max) :
    Kept counted other' { p with reader := p.reader.map (.mapBuf f) } := by
  refine ⟨{ h with }, ?_⟩
  intro rec' hrec' hends
  obtain ⟨rec, hrec, rfl⟩ := Option.map_eq_some_iff.mp hrec'
  have hlisted := h.reader rec hrec hends
  exact ⟨hlisted.chunks, fun hcounted => hf rec hrec hcounted (hlisted.memory hcounted)⟩

end Pipe

/-! ## The other builds -/

namespace HostPipe

variable {h : HostPipe}

abbrev Booked (h : HostPipe) : Prop := h.toPipe.Booked

theorem Booked.arrive (hb : h.Booked) (bytes : List UInt8) : (h.arrive bytes).Booked := by
  unfold HostPipe.arrive
  split
  · exact hb
  · exact ⟨by simp [hb.chunks], hb.inTurn⟩

theorem Booked.landFlights (hb : h.Booked) (lands : Deadline → Bool) :
    (h.landFlights lands).Booked := by
  fun_induction HostPipe.landFlights h lands with
  | case1 h hflights => exact hb
  | case2 h flight rest hflights hlands ih =>
    have hpop : Booked { h with inFlight := rest } :=
      ⟨hb.chunks, (pairwise_cons.mp (hflights ▸ hb.inTurn)).2⟩
    exact ih (hpop.arrive _)
  | case3 h flight rest hflights hlands => exact hb

section Others

variable (hos : h.os ≠ .linux)
include hos

section

variable (hb : h.Booked)
include hb

variable (m : Moment)

theorem Booked.land : (h.land m).Booked := by
  unfold HostPipe.land
  split
  · contradiction
  · split
    · exact hb.landFlights _
    · exact hb
  · split
    · exact hb
    · split
      · exact hb
      · exact hb.landFlights _

theorem Booked.launch (delay : Nat) (bytes : List UInt8) :
    (h.launch m delay bytes).Booked := by
  unfold HostPipe.launch
  split
  · contradiction
  · split
    · exact hb.arrive bytes
    · refine ⟨hb.chunks, hb.inTurn.concat ?_⟩
      unfold arrival
      split
      · exact (le_foldl_later _ _).2
      · exact h.toPipe.le_arrival m.clocks delay

theorem Booked.writeAfter (bytes : List UInt8) (delay : Nat) :
    (h.writeAfter m bytes delay).1.Booked := by
  unfold HostPipe.writeAfter
  split
  · exact hb
  · dsimp only
    split
    · exact hb
    · rw [if_neg fun hlinux => hos hlinux.1]
      exact hb.launch hos m delay _

theorem Booked.read (len : Nat) : (h.read m len).1.Booked := by
  have hland := hb.land hos m
  unfold HostPipe.read
  split
  · contradiction
  · split
    · exact hb
    · dsimp only
      split
      · exact hland
      · refine ⟨?_, hland.inTurn⟩
        show (Pipe.dropChunks ((h.land m).buf.take len).length (h.land m).chunks).sum
          = ((h.land m).buf.drop ((h.land m).buf.take len).length).length
        rw [Pipe.dropChunks_sum (by rw [hland.chunks]; exact length_take_le' _ _),
          hland.chunks, length_drop]

theorem Booked.apply (op : Op) : (h.apply m op).Booked := by
  cases op with
  | writeAfter bytes delay => exact hb.writeAfter hos m bytes delay
  | land => exact hb.land hos m
  | read len => exact hb.read hos m len
  | peek len =>
    unfold HostPipe.apply peek
    dsimp only
    split
    · exact hb
    · exact hb.land hos m
  | shutRead =>
    unfold HostPipe.apply shutRead
    dsimp only
    split
    · exact ⟨rfl, (hb.land hos m).inTurn⟩
    · exact { hb with }
  | reset =>
    have hreset : Booked { h with reset := true, closed := true } := { hb with }
    have hland := Booked.land (h := { h with reset := true, closed := true }) hos hreset m
    unfold HostPipe.apply resetState
    dsimp only
    split
    · exact ⟨rfl, List.Pairwise.nil⟩
    · exact hland
  | readBy rec =>
    unfold HostPipe.apply readBy
    dsimp only
    split
    · contradiction
    · exact { hb with }
  | _ => exact { hb with }

end

end Others

end HostPipe

/-! ## Runs -/

def HostOp.givesBack : HostOp → Bool
  | .op (.read _) | .op (.consumeError _) => true
  | _ => false

namespace HostLine

variable {l : HostLine} {counted : Prop}

def Unsaturated (l : HostLine) (a : HostOp) : Prop :=
  a.givesBack → l.pipe.os = .linux → l.pipe.Light l.other 0

instance (l : HostLine) (a : HostOp) : Decidable (l.Unsaturated a) :=
  inferInstanceAs (Decidable (_ → _))

structure Kept (counted : Prop) (l : HostLine) : Prop where
  booked : l.pipe.Booked
  linux : l.pipe.os = .linux → l.pipe.toPipe.Kept counted l.other

theorem begin_kept (os : Os) (via : Option LinkState) (ends : Option Ends) (moment : Moment) :
    (begin os via ends moment).Kept counted := by
  have hbooked : (Pipe.new via ends).Booked := ⟨rfl, List.Pairwise.nil⟩
  exact ⟨hbooked, fun _ => ⟨hbooked, nofun⟩⟩

theorem kept_apply (h : l.pipe.toPipe.Kept counted l.other) (hos : l.pipe.os = .linux) {op : Op}
    (henabled : l.enabled (.op op)) (hop : counted → l.Unsaturated (.op op)) (now : Clocks) :
    (l.pipe.toPipe.apply now op).1.Kept counted (l.otherAfter op) := by
  cases op with
  | writeAfter bytes delay => exact h.writeAfter now bytes delay
  | land => exact h.land now
  | read len => exact h.read (fun hcounted => hop hcounted rfl hos) now len
  | peek len => exact h.land now
  | reset =>
    have hreset : Pipe.Kept counted l.other { l.pipe.toPipe with reset := true, closed := true } :=
      { h with }
    exact hreset.land now
  | stall | recvWindow =>
    refine ⟨{ h with }, fun rec hrec hends => h.reader rec hrec ?_⟩
    simpa [Pipe.apply] using hends
  | readBy rec => exact h.readBy (by simpa [enabled] using henabled)
  | setRcvbuf value => exact h.mapReader fun rec _ _ hmemory => hmemory
  | admitError charge =>
    refine h.mapReader fun rec hrec hcounted hmemory => ?_
    have hfits : rec.buf.rmemAlloc + charge ≤ u64Max := by simpa [enabled, hrec] using henabled
    simp only [otherAfter, hrec, Option.any_some, SockBuf.admitError]
    split
    · exact hmemory
    · simp only [if_true]
      omega
  | consumeError charge =>
    refine h.mapReader fun rec hrec hcounted hmemory => ?_
    have hsum := Pipe.Light.sum_le (hop hcounted rfl hos) hrec
    have hcharge : charge ≤ l.other := by simpa [enabled] using henabled
    simp only [otherAfter, hrec, Option.isSome_some, if_true, SockBuf.consumeError]
    omega
  | close | shutRead | link | timestamping | writeBy | pendingReader | setMtu | setSndbuf | tick =>
    exact { h with }

theorem Kept.step {a : HostOp} (h : l.Kept counted) (ha : counted → l.Unsaturated a) :
    (l.step a).Kept counted := by
  unfold HostLine.step
  split
  · exact h
  · next henabled =>
    simp only [Bool.not_eq_true', Bool.not_eq_false] at henabled
    split
    · exact { h with }
    · next op _ =>
      by_cases hos : l.pipe.os = .linux
      · have happly := kept_apply (h.linux hos) hos henabled ha l.moment.clocks
        simp only [HostPipe.apply_linux hos]
        exact ⟨happly.toBooked, fun _ => happly⟩
      · refine ⟨h.booked.apply hos l.moment op, fun hlinux => absurd ?_ hos⟩
        rwa [HostPipe.apply_os] at hlinux
    · next cutoff =>
      have hmac : l.pipe.os = .macos := by simpa [enabled] using henabled
      have hbooked := h.booked.landFlights fun at_ =>
        decide ((l.moment.effective at_).instant ≤ cutoff.instant)
          && (l.moment.effective at_).passed l.moment.clocks
      refine ⟨⟨hbooked.chunks, List.Pairwise.nil⟩, fun hlinux => ?_⟩
      simp only [HostPipe.resetQuietAt, HostPipe.landFlights_os, hmac] at hlinux
      exact absurd hlinux (by decide)
    · exact { h with }
    · exact { h with }

structure Books (l : HostLine) : Prop where
  chunks : l.pipe.chunks.sum = l.pipe.buf.length
  inTurn : InTurn l.pipe.inFlight
  listed : l.pipe.os = .linux → l.pipe.ends.isSome → l.pipe.reader.isSome →
    (l.pipe.rxMemory.map Prod.fst).sum = l.pipe.buf.length

/-- The reader's memory is what the pipe lists, beside what it is charged for elsewhere, where 64
bits hold that. -/
def Charges (l : HostLine) : Prop :=
  l.pipe.os = .linux → l.pipe.ends.isSome → ∀ rec, l.pipe.reader = some rec →
    l.other + (l.pipe.rxMemory.map Prod.snd).sum ≤ u64Max →
    rec.buf.rmemAlloc = l.other + (l.pipe.rxMemory.map Prod.snd).sum

theorem Kept.books (h : l.Kept counted) : l.Books where
  chunks := h.booked.chunks
  inTurn := h.booked.inTurn
  listed := by
    intro hos hends hreader
    obtain ⟨rec, hrec⟩ := Option.isSome_iff_exists.mp hreader
    rw [((h.linux hos).reader rec hrec hends).chunks]
    exact h.booked.chunks

theorem Kept.charges (h : l.Kept True) : l.Charges := by
  intro hos hends rec hrec hsum
  rw [((h.linux hos).reader rec hrec hends).memory trivial]
  exact Nat.min_eq_left hsum

/-- **The books balance** along every run on every host; and so does the reader's memory, where the
counter does not saturate. -/
theorem books_kept (os : Os) (via : Option LinkState) (ends : Option Ends) (moment : Moment)
    (ops : List HostOp) : Runs.Always step Books (begin os via ends moment) ops
      ∧ (Runs.Along step Unsaturated (begin os via ends moment) ops →
        Runs.Always step Charges (begin os via ends moment) ops) := by
  refine ⟨?_, fun hops => ?_⟩
  · have hkept : Runs.Always step (Kept False) (begin os via ends moment) ops :=
      Runs.always_of_step (fun l a hl => hl.step nofun) (begin_kept os via ends moment) ops
    exact hkept.imp fun l hl => hl.books
  · have hkept : Runs.Always step (Kept True) (begin os via ends moment) ops :=
      Runs.always_of_along (fun l a hl ha => hl.step fun _ => ha)
        (begin_kept os via ends moment) hops
    exact hkept.imp fun l hl => hl.charges

def socket (skb : Nat × Nat) : SockRec where
  buf :=
    { rcvbuf := 4096, sndbuf := 4096, rcvLocked := false, enforceError := false, errorMem := 0,
      skb, rmemAlloc := 0 }
  flags := 0

/-- A chunk waits as the reader joins, another arrives, and one byte of the first is read. -/
def joined : List HostOp :=
  [.op (.writeAfter [1, 2, 3] 0), .op (.readBy (socket (960, 320))), .op (.writeAfter [4, 5] 0),
    .op (.read 1)]

theorem books_kept_joined :
    Runs.Along step Unsaturated (begin .linux none (some { limits := {} }) ⟨⟨some 0, 0⟩, id⟩) joined
      ∧ Runs.Always step Charges (begin .linux none (some { limits := {} }) ⟨⟨some 0, 0⟩, id⟩)
        joined
      ∧ (joined.foldl step
        (begin .linux none (some { limits := {} }) ⟨⟨some 0, 0⟩, id⟩)).pipe.rxMemory
          = [(2, 963), (2, 962)] := by
  have hops : Runs.Along step Unsaturated
      (begin .linux none (some { limits := {} }) ⟨⟨some 0, 0⟩, id⟩) joined := by decide +kernel
  exact ⟨hops, (books_kept _ _ _ _ _).2 hops, by decide +kernel⟩

def paired : HostLine :=
  [.op (.readBy (socket (960, 320))), .op (.writeAfter [1] 0)].foldl step
    (begin .linux none none ⟨⟨some 0, 0⟩, id⟩)

/-- Two segments wait for a socket each of whose segments costs all that 64 bits hold. -/
def costly : HostLine :=
  [.op (.readBy (socket (u64Max, 320))), .op (.writeAfter [1] 0),
    .op (.writeAfter [2] 0)].foldl step
    (begin .linux none (some { limits := {} }) ⟨⟨some 0, 0⟩, id⟩)

/-- **Not listed, not counted.** A socketpair keeps no receive memory, and a saturated counter holds
less than the charges listed. -/
theorem books_unlisted : (paired.pipe.rxMemory.map Prod.fst).sum ≠ paired.pipe.buf.length
      ∧ costly.pipe.reader.any fun rec =>
        rec.buf.rmemAlloc != costly.other + (costly.pipe.rxMemory.map Prod.snd).sum := by
  decide +kernel

end HostLine

end Snare.Stream
