import Snare.Stream.Hosts
import Snare.Stream.Flow

/-!
# What readiness says is what a call does

`readable_or_closed`, `can_write` and `writable` write out by hand the conditions under which a read
or a write gets somewhere. Each of them lands first, and so does a read, so the two agree once
landing twice is landing once: **`Pipe.land_land`** on Linux, where a landing ends with the transmit
loop, and `HostPipe.land_land` on every host.

A peek reads what a read would, up to what the read itself lets through: on Linux a read frees the
reader's memory, the window opens, and bytes that waited in the transport can arrive in the middle
of it (**`Pipe.read_data`**).
-/

namespace Snare.Stream

open List

theorem Deadline.after_not_passed {delay : Nat} (now : Clocks) (h : delay ≠ 0) :
    (Deadline.after now delay).passed now = false := by
  unfold Deadline.after Deadline.passed
  cases hvirtual : now.virtual with
  | none =>
    simp only [Bool.false_eq_true, if_false, decide_eq_false_iff_not]
    omega
  | some v =>
    simp only [if_true, Option.all_some, decide_eq_false_iff_not]
    omega

namespace Pipe

variable {p : Pipe} {now : Clocks}

/-! ## Landing twice, on Linux -/

def Waits (p : Pipe) (now : Clocks) : Prop := ∀ f ∈ p.inFlight.head?, f.at_.passed now = false

/-- Nothing more lands: the link is down, a stall holds the pipe, or no flight has arrived and the
transport has nothing to send. -/
def Settled (p : Pipe) (now : Clocks) : Prop :=
  p.linkUp → p.held now = none → p.Waits now ∧ p.transport.bind TcpTransport.next = none

theorem landFlights_waits (p : Pipe) (now : Clocks) : (p.landFlights now).Waits now := by
  fun_induction landFlights p now with
  | case1 p hflights => simp [Waits, hflights]
  | case2 p flight rest hflights hpassed ih => exact ih
  | case3 p flight rest hflights hpassed => simpa [Waits, hflights] using hpassed

theorem SameSetting.linkUp {q : Pipe} (h : SameSetting p q) : q.linkUp = p.linkUp := by
  simp only [Pipe.linkUp, h.via]

theorem SameSetting.held {q : Pipe} (h : SameSetting p q) (now : Clocks) :
    q.held now = p.held now := by
  simp only [Pipe.held, h.ends]

theorem Waits.launch {delay : Nat} (h : p.Waits now) (hup : p.linkUp) (hheld : p.held now = none)
    (bytes : List UInt8) (mss : Nat) : (p.launch now delay bytes mss).Waits now := by
  unfold Pipe.launch
  split
  · unfold Waits
    rw [arrive_inFlight]
    exact h
  · next honce =>
    intro f hf
    cases hflights : p.inFlight with
    | cons first rest =>
      refine h f ?_
      simpa [hflights] using hf
    | nil =>
      have hdelay : delay ≠ 0 := by simpa [atOnce, hflights, hheld, hup] using honce
      obtain rfl : ⟨p.arrival now delay, bytes, mss⟩ = f := by simpa [hflights] using hf
      simpa [arrival, hflights, hheld] using Deadline.after_not_passed now hdelay

theorem Waits.transmit (h : p.Waits now) (hup : p.linkUp) (hheld : p.held now = none) :
    (p.transmit now).Waits now := by
  refine (transmit_induction (P := fun q => SameSetting p q ∧ q.Waits now) now ?_ ⟨.refl p, h⟩).2
  rintro q t t' seg ⟨hsame, hq⟩ ht _
  have hcut : SameSetting p { q with transport := some t' } :=
    { hsame with transport := hsame.transport ▸ (congrArg Option.isSome ht).symm }
  have hwaits : Waits { q with transport := some t' } now := hq
  exact ⟨hcut.trans (launch_setting _ now _ _ _),
    hwaits.launch (hcut.linkUp.trans hup) ((hcut.held now).trans hheld) _ _⟩

theorem land_settled (p : Pipe) (now : Clocks) : (p.land now).Settled now := by
  intro hup hheld
  rw [(p.land_setting now).linkUp] at hup
  rw [(p.land_setting now).held] at hheld
  rw [land, if_neg (by simpa using hup), if_neg (by simp [hheld])]
  have hsame := p.landFlights_setting now
  exact ⟨(p.landFlights_waits now).transmit (hsame.linkUp.trans hup) ((hsame.held now).trans hheld),
    transmit_done _ now⟩

theorem Waits.landFlights (h : p.Waits now) : p.landFlights now = p := by
  rw [Pipe.landFlights]
  split
  · rfl
  · next flight rest hflights =>
    simp [h flight (by simp [hflights])]

theorem transmit_of_none (h : p.transport.bind TcpTransport.next = none) : p.transmit now = p := by
  rw [transmit]
  split
  · rfl
  · next hnext => simp [h] at hnext

theorem Settled.land (h : p.Settled now) : p.land now = p := by
  unfold Pipe.land
  split
  · rfl
  · next hup =>
    split
    · rfl
    · next hheld =>
      obtain ⟨hwaits, hnext⟩ := h (by simpa using hup) (by simpa using hheld)
      rw [hwaits.landFlights, transmit_of_none hnext]

theorem land_land (p : Pipe) (now : Clocks) : (p.land now).land now = p.land now :=
  (p.land_settled now).land

/-! ## What a read returns, on Linux -/

theorem Settled.release (h : p.Settled now) (hbacklog : p.backlog = []) (n : Nat) :
    ((p.drain n).release now n).Settled now ∧ ((p.drain n).release now n).buf = p.buf.drop n := by
  unfold Pipe.release
  cases hreader : (p.drain n).reader with
  | none => exact ⟨h, rfl⟩
  | some rec =>
    have hnext : ((p.drain n).credit rec n).transport.bind TcpTransport.next = none := by
      cases ht : p.transport with
      | none => simp [credit, drain, ht]
      | some t =>
        have hbytes : t.bytes = [] := by simpa [backlog, ht] using hbacklog
        simp only [credit, drain, ht, Option.map_some, Option.bind_some]
        exact TcpTransport.next_eq_none.mpr (.inr hbytes)
    dsimp only
    rw [transmit_of_none hnext]
    exact ⟨fun hup hheld => ⟨(h hup hheld).1, hnext⟩, rfl⟩

theorem readLoop_of_empty {len : Nat} {copied : List UInt8} (h : (p.land now).buf = []) :
    (p.readLoop now len copied).2
      = if copied = [] then (p.land now).atEnd now else .data copied := by
  have hchunk : p.readChunk now len = (p.land now, (p.land now).atEnd now) := by
    unfold readChunk
    rw [if_pos h]
  rw [readLoop]
  split
  · next p' out hdata => exact absurd h (readChunk_data hdata).1
  · next p' other _ hother =>
    rw [hchunk] at hother
    obtain ⟨-, rfl⟩ := Prod.mk.inj hother
    rfl

theorem readLoop_starts {len : Nat} {copied : List UInt8} (h : copied ≠ []) :
    ∃ more, (p.readLoop now len copied).2 = .data (copied ++ more) := by
  fun_induction readLoop p now len copied with
  | case1 p len copied p' out hchunk hdone => exact ⟨out, rfl⟩
  | case2 p len copied p' out hchunk hmore ih =>
    obtain ⟨more, hmore⟩ := ih (append_ne_nil_of_left_ne_nil h out)
    exact ⟨out ++ more, by rw [hmore, append_assoc]⟩
  | case3 p len copied p' other hchunk hother => exact ⟨[], by rw [if_neg h, append_nil]⟩

/-- **A read returns what has landed**, and on top of it only what waited in the transport. -/
theorem read_data (len : Nat) (h : (p.land now).buf ≠ []) :
    ∃ more, (p.read now len).2 = .data ((p.land now).buf.take len ++ more)
      ∧ ((p.land now).backlog = [] → more = []) := by
  have hchunk : p.readChunk now len
      = (((p.land now).drain ((p.land now).buf.take len).length).release now
        ((p.land now).buf.take len).length, .data ((p.land now).buf.take len)) := by
    unfold readChunk
    rw [if_neg h]
  unfold read
  rw [readLoop]
  split
  · next p' out hdata =>
    rw [hchunk] at hdata
    obtain ⟨rfl, hout⟩ := Prod.mk.inj hdata
    obtain rfl := Read.data.inj hout
    split
    · exact ⟨[], by simp, fun _ => rfl⟩
    · next hshort =>
      -- the buffer was not long enough, so all that had landed is read
      have htake : (p.land now).buf.take len = (p.land now).buf := by
        have hlen : ((p.land now).buf.take len).length ≠ len := fun hlen => hshort (.inl hlen)
        rw [length_take] at hlen
        exact take_of_length_le (by omega)
      simp only [nil_append]
      by_cases hbacklog : (p.land now).backlog = []
      · obtain ⟨hsettled, hbuf⟩ := (p.land_settled now).release hbacklog
          ((p.land now).buf.take len).length
        refine ⟨[], ?_, fun _ => rfl⟩
        rw [readLoop_of_empty (by rw [hsettled.land, hbuf, htake, drop_length]),
          if_neg (by rwa [htake]), append_nil]
      · have hne : (p.land now).buf.take len ≠ [] := by rwa [htake]
        obtain ⟨more, hmore⟩ := readLoop_starts hne
        exact ⟨more, hmore, fun hnil => absurd hnil hbacklog⟩
  · next p' other hother hdata =>
    rw [hchunk] at hdata
    exact absurd (Prod.mk.inj hdata).2.symm (hother _)

/-! ## The room of a pipe does not depend on where its bytes are -/

theorem arrive_capacity (p : Pipe) (bytes : List UInt8) (mss : Nat) :
    (p.arrive bytes mss).capacity = p.capacity := by
  unfold arrive charge
  split
  · rfl
  · split
    · rfl
    · unfold capacity recvRoom
      cases p.reader with
      | none => rfl
      | some rec => rfl

theorem launch_capacity (p : Pipe) (now : Clocks) (delay : Nat) (bytes : List UInt8) (mss : Nat) :
    (p.launch now delay bytes mss).capacity = p.capacity := by
  unfold launch
  split
  · exact p.arrive_capacity bytes mss
  · rfl

theorem land_capacity (p : Pipe) (now : Clocks) : (p.land now).capacity = p.capacity := by
  have hflights : (p.landFlights now).capacity = p.capacity := by
    refine landFlights_induction (P := fun q => q.capacity = p.capacity) now ?_ rfl
    intro q flight rest hq _
    exact (arrive_capacity _ _ _).trans hq
  refine land_cases (P := fun q => q.capacity = p.capacity) rfl ?_
  refine transmit_induction (P := fun q => q.capacity = p.capacity) now ?_ hflights
  intro q t t' seg hq _ _
  exact (launch_capacity _ now _ _ _).trans hq

end Pipe

theorem Pipe.atEnd_eq_wouldBlock {p : Pipe} {now : Clocks} :
    p.atEnd now = .wouldBlock ↔ ((p.reset && !p.pending) || p.readShut
        || (p.closed && !p.pending && (p.held now).isNone)) = false := by
  unfold atEnd
  generalize (p.held now).isNone = free
  cases p.reset <;> cases p.pending <;> cases p.readShut <;> cases p.closed <;> cases free <;> simp

/-- `r'` is `r`, or its bytes go on from those of `r`. -/
def Read.Starts : Read → Read → Prop
  | .data bytes, .data bytes' => bytes <+: bytes'
  | r, r' => r = r'

theorem Read.Starts.refl (r : Read) : r.Starts r := by
  cases r with
  | data bytes => exact prefix_rfl
  | _ => rfl

namespace HostPipe

variable {h : HostPipe} {m : Moment}

/-! ## Landing twice, on the other hosts -/

theorem landFlights_eq (h : HostPipe) (lands : Deadline → Bool) :
    ∃ buf chunks inFlight, inFlight <:+ h.inFlight
      ∧ h.landFlights lands = { h with buf, chunks, inFlight } := by
  fun_induction landFlights h lands with
  | case1 h hflights => exact ⟨_, _, _, suffix_rfl, rfl⟩
  | case2 h flight rest hflights hlands ih =>
    obtain ⟨buf, chunks, inFlight, hsuffix, hland⟩ := ih
    rw [arrive_inFlight] at hsuffix
    refine ⟨buf, chunks, inFlight, hsuffix.trans (hflights ▸ suffix_cons flight rest), ?_⟩
    rw [hland]
    unfold arrive
    split <;> rfl
  | case3 h flight rest hflights hlands => exact ⟨_, _, _, suffix_rfl, rfl⟩

theorem land_eq (hos : h.os ≠ .linux) (m : Moment) :
    ∃ buf chunks inFlight, inFlight <:+ h.inFlight ∧
      h.land m = { h with buf, chunks, inFlight } := by
  unfold land
  split
  · contradiction
  · split
    · exact landFlights_eq _ _
    · exact ⟨_, _, _, suffix_rfl, rfl⟩
  · split
    · exact ⟨_, _, _, suffix_rfl, rfl⟩
    · split
      · exact ⟨_, _, _, suffix_rfl, rfl⟩
      · exact landFlights_eq _ _

theorem landFlights_landFlights (h : HostPipe) (lands : Deadline → Bool) :
    (h.landFlights lands).landFlights lands = h.landFlights lands := by
  fun_induction landFlights h lands with
  | case1 h hflights =>
    rw [landFlights]
    split
    · rfl
    · next hcons => simp [hflights] at hcons
  | case2 h flight rest hflights hlands ih => exact ih
  | case3 h flight rest hflights hlands =>
    rw [landFlights]
    split
    · rfl
    · next first others hcons =>
      rw [hflights] at hcons
      obtain ⟨rfl, rfl⟩ := List.cons.inj hcons
      rw [if_neg hlands]

theorem landFlights_linkUp (h : HostPipe) (lands : Deadline → Bool) :
    (h.landFlights lands).linkUp = h.linkUp := by
  obtain ⟨buf, chunks, inFlight, -, heq⟩ := landFlights_eq h lands
  rw [heq]
  rfl

theorem landFlights_held (h : HostPipe) (lands : Deadline → Bool) (now : Clocks) :
    (h.landFlights lands).held now = h.held now := by
  obtain ⟨buf, chunks, inFlight, -, heq⟩ := landFlights_eq h lands
  rw [heq]
  rfl

theorem land_land (h : HostPipe) (m : Moment) : (h.land m).land m = h.land m := by
  cases hos : h.os with
  | linux =>
    rw [land_linux hos, land_linux (by exact hos), withPipe_toPipe, Pipe.land_land]
    rfl
  | macos =>
    by_cases hup : h.linkUp
    · have hland : h.land m = h.landFlights fun at_ => (m.effective at_).passed m.clocks := by
        simp only [land, hos, if_pos hup]
      simp only [land, landFlights_os, hos, landFlights_linkUp, if_pos hup]
      exact landFlights_landFlights _ _
    · have hland : h.land m = h := by simp only [land, hos, if_neg hup]
      rw [hland, hland]
  | windows =>
    by_cases hup : h.linkUp ∧ h.held m.clocks = none
    · have hland : h.land m = h.landFlights fun at_ => at_.passed m.clocks := by
        simp [land, hos, hup]
      simp only [land, landFlights_os, hos, landFlights_linkUp, landFlights_held, hup,
        Bool.not_true, Bool.false_eq_true, if_false, Option.isSome_none]
      exact landFlights_landFlights _ _
    · have hland : h.land m = h := by
        simp only [land, hos]
        split
        · rfl
        · next hlink =>
          rw [if_pos]
          rw [Option.isSome_iff_ne_none]
          exact fun hheld => hup ⟨by simpa using hlink, hheld⟩
      rw [hland, hland]

/-! ## What holds of every pipe -/

/-- Only Linux has a transport, and a reset on Windows leaves nothing in flight. -/
structure Quiet (h : HostPipe) : Prop where
  transport : h.os ≠ .linux → h.transport = none
  reset : h.os = .windows → h.reset → h.closed ∧ h.inFlight = []

theorem Quiet.pending (hq : h.Quiet) (hos : h.os = .windows) (hreset : h.reset) :
    h.pending = false := by
  have htransport := hq.transport (by rw [hos]; decide)
  simp [Pipe.pending, htransport, (hq.reset hos hreset).2]

theorem Quiet.of_linux (hos : h.os = .linux) : h.Quiet :=
  ⟨fun hne => absurd hos hne, fun hwin => absurd (hos.symm.trans hwin) (by decide)⟩

theorem Quiet.land (hq : h.Quiet) (m : Moment) : (h.land m).Quiet := by
  by_cases hos : h.os = .linux
  · exact .of_linux (by rwa [land_os])
  · obtain ⟨buf, chunks, inFlight, hsuffix, heq⟩ := land_eq hos m
    rw [heq]
    refine ⟨hq.transport, fun hwin hreset => ?_⟩
    obtain ⟨hclosed, hflights⟩ := hq.reset hwin hreset
    rw [hflights] at hsuffix
    exact ⟨hclosed, suffix_nil.mp hsuffix⟩

theorem Quiet.writeAfter (hq : h.Quiet) (hos : h.os ≠ .linux) (m : Moment) (bytes : List UInt8)
    (delay : Nat) : (h.writeAfter m bytes delay).1.Quiet := by
  unfold HostPipe.writeAfter
  split
  · exact hq
  · next hopen =>
    dsimp only
    split
    · exact hq
    · rw [if_neg fun hlinux => hos hlinux.1]
      -- a pipe that takes a write is not closed, so it was not reset on Windows
      have hreset : h.os = .windows → h.reset → False := by
        intro hwin hreset
        simp [sendingClosed, (hq.reset hwin hreset).1] at hopen
      unfold launch
      split
      · contradiction
      · split
        · unfold arrive
          split
          · exact hq
          · exact ⟨hq.transport, fun hwin hr => (hreset hwin hr).elim⟩
        · exact ⟨hq.transport, fun hwin hr => (hreset hwin hr).elim⟩

theorem Quiet.apply (hq : h.Quiet) (m : Moment) (op : Op) : (h.apply m op).Quiet := by
  by_cases hos : h.os = .linux
  · exact .of_linux (by rwa [apply_os])
  have hland := hq.land m
  cases op with
  | writeAfter bytes delay => exact hq.writeAfter hos m bytes delay
  | land => exact hland
  | read len =>
    unfold HostPipe.apply read
    dsimp only
    split
    · contradiction
    · split
      · exact hq
      · split
        · exact hland
        · exact { hland with }
  | peek len =>
    unfold HostPipe.apply peek
    dsimp only
    split
    · exact hq
    · exact hland
  | shutRead =>
    unfold HostPipe.apply shutRead
    dsimp only
    split
    · exact { hland with }
    · exact { hq with }
  | reset =>
    obtain ⟨buf, chunks, inFlight, -, heq⟩ :=
      land_eq (h := { h with reset := true, closed := true }) hos m
    unfold HostPipe.apply resetState
    dsimp only
    rw [heq]
    split
    · exact ⟨hq.transport, fun _ _ => ⟨rfl, rfl⟩⟩
    · next hne => exact ⟨hq.transport, fun hwin => absurd hwin hne⟩
  | readBy rec =>
    unfold HostPipe.apply readBy
    dsimp only
    split
    · contradiction
    · exact { hq with }
  | close => exact ⟨hq.transport, fun hwin hreset => ⟨rfl, (hq.reset hwin hreset).2⟩⟩
  | _ => exact { hq with }

/-! ## Reading -/

theorem early_land (hos : h.os ≠ .linux) (m : Moment) : (h.land m).early = h.early := by
  obtain ⟨buf, chunks, inFlight, -, heq⟩ := land_eq hos m
  rw [heq]
  rfl

theorem read_early {r : Read} (hearly : h.early = some r) (len : Nat) : (h.read m len).2 = r := by
  unfold read
  split
  · next hos => simp [early_linux hos] at hearly
  · rw [hearly]

theorem read_landed (hland : h.land m = h) (hearly : h.early = none) (len : Nat) :
    ∃ more, ((h.os = .linux → h.backlog = []) → more = []) ∧ (h.read m len).2
        = if h.buf = [] then h.atEnd m.clocks else .data (h.buf.take len ++ more) := by
  by_cases hos : h.os = .linux
  · have hpipe : h.toPipe.land m.clocks = h.toPipe := by
      rw [land_linux hos] at hland
      exact congrArg toPipe hland
    have hread : (h.read m len).2 = (h.toPipe.read m.clocks len).2 := by simp only [read, hos]
    rw [hread]
    by_cases hbuf : h.buf = []
    · refine ⟨[], fun _ => rfl, ?_⟩
      rw [if_pos hbuf, Pipe.read, Pipe.readLoop_of_empty (by rwa [hpipe]), if_pos rfl, hpipe]
    · obtain ⟨more, hdata, hmore⟩ := Pipe.read_data len (by rwa [hpipe])
      rw [hpipe] at hdata hmore
      exact ⟨more, fun hnone => hmore (hnone hos), by rw [if_neg hbuf, hdata]⟩
  · refine ⟨[], fun _ => rfl, ?_⟩
    unfold read
    split
    · contradiction
    · rw [hearly, hland]
      dsimp only
      split
      · rfl
      · rw [append_nil]

/-- **Readable is what a read finds.** -/
theorem readable_iff (hq : h.Quiet) (len : Nat) :
    (h.readableOrClosed m).2 = true ↔ ((h.readableOrClosed m).1.read m len).2 ≠ .wouldBlock := by
  have hq' := hq.land m
  have hland := h.land_land m
  unfold readableOrClosed
  dsimp only
  generalize h.land m = q at hq' hland
  cases hearly : q.early with
  | some r =>
    rw [read_early hearly]
    -- a reset on Windows leaves nothing pending
    unfold early at hearly
    split at hearly
    · next hreset =>
      cases hearly
      simp [hreset.2, hq'.pending hreset.1 hreset.2]
    · split at hearly
      · next hshut =>
        cases hearly
        simp [hshut.2]
      · cases hearly
  | none =>
    obtain ⟨more, -, hread⟩ := read_landed hland hearly len
    rw [hread]
    by_cases hbuf : q.buf = []
    · rw [if_pos hbuf, ne_eq, Pipe.atEnd_eq_wouldBlock, Bool.not_eq_false, hbuf]
      simp
    · simp [hbuf]

/-- **A peek finds what a read would**, up to what a read lets through on its way. -/
theorem peek_starts (h : HostPipe) (m : Moment) (len : Nat) :
    (h.peek m len).2.Starts ((h.peek m len).1.read m len).2
      ∧ ((h.os = .linux → (h.peek m len).1.backlog = []) →
        ((h.peek m len).1.read m len).2 = (h.peek m len).2) := by
  unfold peek
  cases hearly : h.early with
  | some r =>
    rw [read_early hearly]
    exact ⟨.refl r, fun _ => rfl⟩
  | none =>
    have hearly' : (h.land m).early = none := by
      by_cases hos : h.os = .linux
      · exact early_linux (by rwa [land_os])
      · rw [early_land hos, hearly]
    obtain ⟨more, hmore, hread⟩ := read_landed (h.land_land m) hearly' len
    rw [land_os] at hmore
    dsimp only
    rw [hread]
    split
    · exact ⟨.refl _, fun _ => rfl⟩
    · refine ⟨prefix_append _ _, fun hnone => ?_⟩
      rw [hmore hnone, append_nil]

/-! ## Writing -/

theorem land_capacity (h : HostPipe) (m : Moment) : (h.land m).capacity = h.capacity := by
  by_cases hos : h.os = .linux
  · rw [capacity_linux hos, capacity_linux (h := h.land m) (by rwa [land_os]), land_linux hos]
    exact Pipe.land_capacity _ _
  · obtain ⟨buf, chunks, inFlight, -, heq⟩ := land_eq hos m
    rw [heq]
    rfl

variable {bytes : List UInt8}

theorem writeAfter_stuck {delay : Nat} :
    (h.writeAfter m bytes delay).2 = some 0 ↔ h.sendingClosed = false ∧ h.accepts bytes = 0 := by
  unfold writeAfter
  split
  · next hclosed => simp [hclosed]
  · next hopen =>
    dsimp only
    split
    · next hzero => simp [hopen, hzero]
    · next hsome => split <;> simp [hsome]

theorem accepts_unbounded (hcap : h.capacity = none) : h.accepts bytes = bytes.length := by
  rw [accepts, hcap, Option.elim_none]

theorem accepts_bounded {cap : Nat} (hcap : h.capacity = some cap) :
    h.accepts bytes = takes h.os cap h.used bytes.length h.writer.isSome := by
  rw [accepts, hcap, Option.elim_some]

/-- **A write that can be made makes progress, and the other way round.** -/
theorem canWrite_iff (hbytes : bytes ≠ []) (delay : Nat) : (h.canWrite m bytes.length).2 = true ↔
      ((h.canWrite m bytes.length).1.writeAfter m bytes delay).2 ≠ some 0 := by
  have hlen : bytes.length ≠ 0 := by simpa using hbytes
  rw [ne_eq, writeAfter_stuck]
  unfold canWrite
  cases hcap : h.capacity with
  | none => simp [accepts_unbounded hcap, hlen]
  | some cap =>
    rw [accepts_bounded ((h.land_capacity m).trans hcap)]
    simp only [Bool.or_eq_true, decide_eq_true_eq]
    cases (h.land m).sendingClosed with
    | true => simp
    | false => simp [Nat.pos_iff_ne_zero]

theorem writable_takes (hos : h.os = .linux) (hwritable : (h.writable m).2 = true)
    (hbytes : bytes ≠ []) (delay : Nat) :
    ((h.writable m).1.writeAfter m bytes delay).2 ≠ some 0 := by
  have hlen : bytes.length ≠ 0 := by simpa using hbytes
  rw [ne_eq, writeAfter_stuck]
  unfold writable at hwritable ⊢
  cases hcap : h.capacity with
  | none => simp [accepts_unbounded hcap, hlen]
  | some cap =>
    rw [hcap] at hwritable
    dsimp only at hwritable ⊢
    split at hwritable
    · next hclosed =>
      simp [hclosed]
    · next hopen =>
      rw [if_neg hopen]
      simp only [land_os, hos, decide_eq_true_eq] at hwritable
      rw [accepts_bounded ((h.land_capacity m).trans hcap), land_os, hos]
      rintro ⟨-, hzero⟩
      unfold takes at hzero
      dsimp only at hzero
      split at hzero
      · exact hlen hzero
      · simp only [ite_self] at hzero
        omega

end HostPipe

/-! ## Every reachable state -/

namespace HostLine

variable {l : HostLine}

theorem quiet_step (hq : l.pipe.Quiet) (a : HostOp) : (l.step a).pipe.Quiet := by
  unfold step
  split
  · exact hq
  · next henabled =>
    split
    · exact hq
    · exact hq.apply l.moment _
    · next cutoff =>
      obtain ⟨buf, chunks, inFlight, -, heq⟩ := HostPipe.landFlights_eq l.pipe fun at_ =>
        decide ((l.moment.effective at_).instant ≤ cutoff.instant)
          && (l.moment.effective at_).passed l.moment.clocks
      unfold HostPipe.resetQuietAt
      rw [heq]
      exact ⟨hq.transport, fun _ _ => ⟨rfl, rfl⟩⟩
    · exact { hq with }
    · exact hq

/-- What readiness says of a pipe, and what the call made next does. -/
structure Agrees (l : HostLine) : Prop where
  readable : ∀ len, 0 < len → ((l.pipe.readableOrClosed l.moment).2 = true ↔
      ((l.pipe.readableOrClosed l.moment).1.read l.moment len).2 ≠ .wouldBlock)
  peek : ∀ len, (l.pipe.peek l.moment len).2.Starts
    ((l.pipe.peek l.moment len).1.read l.moment len).2
  peekExact : ∀ len, (l.pipe.os = .linux → (l.pipe.peek l.moment len).1.backlog = []) →
    ((l.pipe.peek l.moment len).1.read l.moment len).2 = (l.pipe.peek l.moment len).2
  canWrite : ∀ bytes delay, bytes ≠ [] → ((l.pipe.canWrite l.moment bytes.length).2 = true ↔
      ((l.pipe.canWrite l.moment bytes.length).1.writeAfter l.moment bytes delay).2 ≠ some 0)
  writable : l.pipe.os = .linux → (l.pipe.writable l.moment).2 = true → ∀ bytes delay, bytes ≠ [] →
    ((l.pipe.writable l.moment).1.writeAfter l.moment bytes delay).2 ≠ some 0

/-- **Readiness and I/O agree** in every state of every run, on every host. -/
theorem readiness_agrees (os : Os) (via : Option LinkState) (ends : Option Ends) (moment : Moment)
    (ops : List HostOp) : Runs.Always step Agrees (begin os via ends moment) ops := by
  have hbegin : (begin os via ends moment).pipe.Quiet := ⟨fun _ => rfl, fun _ => nofun⟩
  have hquiet : Runs.Always step (fun l : HostLine => l.pipe.Quiet)
      (begin os via ends moment) ops :=
    Runs.always_of_step (I := fun l : HostLine => l.pipe.Quiet)
      (fun l a hq => quiet_step hq a) hbegin
      ops
  exact hquiet.imp fun l hq => {
    readable := fun len _ => HostPipe.readable_iff hq len
    peek := fun len => (HostPipe.peek_starts _ _ len).1
    peekExact := fun len => (HostPipe.peek_starts _ _ len).2
    canWrite := fun bytes delay hbytes => HostPipe.canWrite_iff hbytes delay
    writable := fun hos hwritable bytes delay hbytes =>
      HostPipe.writable_takes hos hwritable hbytes delay }

/-- Three hundred bytes for a socket with a receive buffer of 512, of which 256 fit the window. -/
def windowed : HostLine :=
  [.op (.setMtu 1500), .op (.readBy {
      buf := {
        rcvbuf := 512, sndbuf := 87040, rcvLocked := true, enforceError := false, errorMem := 0,
        skb := (960, 378), rmemAlloc := 0 }
      flags := 0 }),
    .op (.writeAfter (List.replicate 300 1) 0)].foldl step
    (begin .linux none (some { limits := {} }) ⟨⟨some 0, 0⟩, id⟩)

/-- **A read goes on where a peek stops.** The peek finds the bytes that fit the window; the read
opens it and gets the rest as well. -/
theorem peek_stops_short : (windowed.pipe.peek windowed.moment 400).2.bytes.length = 256
      ∧ (windowed.pipe.read windowed.moment 400).2.bytes.length = 300 := by
  decide +kernel

end HostLine

end Snare.Stream
