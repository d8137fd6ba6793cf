import Snare.Stream.Transport

/-!
# The receive window

What the window arithmetic of the transport keeps. `Sound` bounds the quantities the window is
computed from: the segment sizes and half the widest window stay within `threshold`, the bound on
the window, and every share of the buffer that payload may take is at least a byte.

* **`Sound.advertise_opens`**: with no receive memory charged, advertising leaves the window's end
  beyond what was received;
* **`Sound.arrive`**, **`Sound.advertise`**: an arrival and a reading keep `Sound`.
-/

namespace Snare.Stream

theorem windowScale_dvd {buffer scale : Nat} (h : scale ∣ 128) :
    windowScale buffer scale ∣ 128 := by
  fun_induction windowScale buffer scale with
  | case1 scale hgrow ih =>
    have hdouble : ∀ s < 128, s ∣ 128 → s * 2 ∣ 128 := by decide
    exact ih (hdouble scale hgrow.2 h)
  | case2 scale hdone => exact h

theorem firstWindow_le (space advmss : Nat) : firstWindow space advmss ≤ space := by
  refine (Nat.min_le_left _ _).trans ?_
  split
  · exact Nat.div_mul_le_self _ _
  · exact Nat.le_refl _

theorem firstMss_le (advmss advertised : Nat) :
    firstMss advmss advertised ≤ max (advertised / 2) 1 :=
  Nat.min_le_right _ _

theorem firstGoal_le (initialMss gsoMax advertised : Nat) :
    firstGoal initialMss gsoMax advertised ≤ max initialMss (advertised / 2) := by
  have hwhole := Nat.mul_div_le (min gsoMax (advertised / 2)) initialMss
  unfold firstGoal
  rcases Nat.le_total (min gsoMax (advertised / 2) / initialMss) 1 with hone | hmore
  · rw [Nat.max_eq_right hone]
    omega
  · rw [Nat.max_eq_left hmore]
    omega

namespace TcpTransport

/-- A buffer of at least one scaled byte, of which 256 parts can be counted without wrapping. -/
def Fits (buffer : Nat) : Prop := 256 ≤ buffer ∧ buffer * 256 ≤ u64Max

instance : DecidablePred Fits := fun _ => inferInstanceAs (Decidable (_ ∧ _))

structure Sound (t : TcpTransport) : Prop where
  buffer : Fits t.buffer
  ratio : 1 ≤ t.ratio ∧ t.ratio ≤ 256
  scale : t.scale ≤ 128
  threshold : 128 ≤ t.threshold
  receiveMss : 1 ≤ t.receiveMss ∧ t.receiveMss ≤ t.threshold
  initialMss : t.initialMss ≤ t.threshold
  reach : t.windowEnd - t.received ≤ t.advertised
  advertised : t.advertised ≤ t.maxWindow
  maxWindow : t.maxWindow ≤ t.threshold + 127

variable (t : TcpTransport)

/-- The advertised window is what lies between the bytes received and the window's end. -/
def Current : Prop := t.advertised = t.windowEnd - t.received

theorem new_sound {buffer : Nat} (hbuffer : Fits buffer) (mtu : Nat) (v6 : Bool) (gsoSize : Nat) :
    (new buffer mtu v6 gsoSize).Sound := by
  generalize ht : new buffer mtu v6 gsoSize = t
  have hthreshold : t.threshold = buffer / 2 := by rw [← ht]; rfl
  have hadvertised : t.advertised ≤ t.threshold := by
    rw [← ht]
    exact firstWindow_le _ _
  have hmss : t.initialMss ≤ max (t.advertised / 2) 1 := by
    rw [← ht]
    exact firstMss_le _ _
  have hgoal : t.initialGoal ≤ max t.initialMss (t.advertised / 2) := by
    rw [← ht]
    exact firstGoal_le _ _ _
  have hreceive : t.receiveMss = min t.initialGoal 536 := by rw [← ht]; rfl
  have hwindow : t.maxWindow = t.advertised := by rw [← ht]; rfl
  have hpos := t.initialGoal_pos
  have hroom := hbuffer.1
  exact {
    buffer := by rw [← ht]; exact hbuffer
    ratio := by rw [← ht]; exact (by decide : 1 ≤ 128 ∧ 128 ≤ 256)
    scale := by
      rw [← ht]
      exact Nat.le_of_dvd (by decide) (windowScale_dvd (by decide))
    threshold := by omega
    receiveMss := by omega
    initialMss := by omega
    reach := by rw [← ht]; exact Nat.le_refl _
    advertised := by omega
    maxWindow := by omega }

theorem new_current (buffer mtu : Nat) (v6 : Bool) (gsoSize : Nat) :
    (new buffer mtu v6 gsoSize).Current := rfl

namespace Sound

variable {t : TcpTransport} (h : t.Sound)
include h

theorem allowed_pos : 1 ≤ t.allowed := by
  have hprod : 256 * 1 ≤ t.buffer * t.ratio := Nat.mul_le_mul h.buffer.1 h.ratio.1
  have hmax : 256 ≤ u64Max := by decide
  simp only [allowed, satMul]
  omega

theorem allowed_le : t.allowed ≤ wrapMul t.buffer t.ratio / 256 := by
  have hfits : t.buffer * t.ratio ≤ u64Max := (Nat.mul_le_mul_left _ h.ratio.2).trans h.buffer.2
  rw [wrapMul_eq hfits]
  exact Nat.div_le_div_right (Nat.min_le_left _ _)

theorem mss_le : t.mss ≤ t.threshold := by
  have := h.threshold
  have := h.maxWindow
  simp only [mss]
  omega

theorem packetMss_le : t.packetMss ≤ t.threshold := by
  unfold packetMss
  split
  · exact h.initialMss
  · exact h.mss_le

theorem window_le (memory : Nat) : t.window memory ≤ t.threshold + 127 := by
  have hfree : t.freeRoom memory ≤ t.threshold := Nat.min_le_right _ _
  have hscale := h.scale
  unfold window
  dsimp only
  split
  · have := Nat.div_mul_le_self (t.freeRoom memory + t.scale - 1) t.scale
    omega
  · split
    · have := Nat.div_mul_le_self (t.freeRoom memory) t.windowMss
      omega
    · exact h.advertised.trans h.maxWindow

theorem windowMss_le_freeRoom : t.windowMss ≤ t.freeRoom 0 := by
  have hallowed := h.allowed_pos
  have hfree := h.allowed_le
  have hfull : t.full ≤ t.allowed := Nat.min_le_right _ _
  have hmss := h.receiveMss
  simp only [freeRoom, Nat.sub_zero]
  -- an empty queue leaves more than half of the window free
  rw [if_neg (by omega)]
  simp only [windowMss]
  omega

/-- **The window opens.** With no memory charged, what is advertised reaches beyond what was
received. -/
theorem advertise_opens (hcurrent : t.Current) : t.received < (t.advertise 0).windowEnd := by
  have hroom := h.windowMss_le_freeRoom
  have hmss : 1 ≤ t.windowMss := Nat.le_max_right _ _
  simp only [advertise]
  rcases Nat.lt_or_ge t.received t.windowEnd with hopen | hshut
  · -- still open: the end never moves back
    split <;> omega
  · -- shut: the window offered is at least a step, so the end moves
    rw [Current] at hcurrent
    have hwindow : t.windowMss ≤ t.window 0 := by
      unfold window
      dsimp only
      split
      · next hscale =>
        have hceil : t.freeRoom 0 ≤ (t.freeRoom 0 + t.scale - 1) / t.scale * t.scale := by
          have hdiv := Nat.div_add_mod (t.freeRoom 0 + t.scale - 1) t.scale
          have hmod := Nat.mod_lt (t.freeRoom 0 + t.scale - 1) (show t.scale > 0 by omega)
          rw [Nat.mul_comm] at hdiv
          omega
        omega
      · rw [if_pos (by omega)]
        exact Nat.le_mul_of_pos_left _ (Nat.div_pos hroom hmss)
    rw [if_pos (by omega)]
    omega

theorem advertise (memory : Nat) : (t.advertise memory).Sound := by
  have hwindow := h.window_le memory
  have hreach := h.reach
  have hle := h.advertised
  have hmax := h.maxWindow
  refine { h with reach := Nat.le_refl _, advertised := Nat.le_max_right _ _, maxWindow := ?_ }
  simp only [TcpTransport.advertise]
  split <;> omega

end Sound

/-! ## Arrivals -/

theorem le_advertise_windowEnd (memory : Nat) : t.windowEnd ≤ (t.advertise memory).windowEnd := by
  simp only [advertise]
  split <;> omega

theorem measure_counters (len mss head : Nat) : (t.measure len mss head).received = t.received
      ∧ (t.measure len mss head).transmitted = t.transmitted
      ∧ (t.measure len mss head).windowEnd = t.windowEnd
      ∧ (t.measure len mss head).threshold = t.threshold := by
  unfold measure
  dsimp only
  split
  · split <;> exact ⟨rfl, rfl, rfl, rfl⟩
  · exact ⟨rfl, rfl, rfl, rfl⟩

theorem widen_counters (len memory : Nat) :
    (t.widen len memory).received = t.received ∧ (t.widen len memory).transmitted = t.transmitted
      ∧ (t.widen len memory).windowEnd = t.windowEnd
      ∧ t.threshold ≤ (t.widen len memory).threshold := by
  unfold widen
  split
  · exact ⟨rfl, rfl, rfl, Nat.le_add_right _ _⟩
  · exact ⟨rfl, rfl, rfl, Nat.le_refl _⟩

theorem arrive_counters (len mss memory head : Nat) :
    (t.arrive len mss memory head).received = t.received + len
      ∧ (t.arrive len mss memory head).transmitted = t.transmitted
      ∧ t.windowEnd ≤ (t.arrive len mss memory head).windowEnd
      ∧ t.threshold ≤ (t.arrive len mss memory head).threshold := by
  obtain ⟨hreceived, htransmitted, hend, hthreshold⟩ := t.measure_counters len mss head
  obtain ⟨hreceived', htransmitted', hend', hthreshold'⟩ :=
    (t.measure len mss head).widen_counters len memory
  rw [hreceived] at hreceived'
  rw [htransmitted] at htransmitted'
  rw [hend] at hend'
  rw [hthreshold] at hthreshold'
  unfold arrive
  dsimp only
  split
  · refine ⟨congrArg (· + len) hreceived', htransmitted', ?_, hthreshold'⟩
    rw [← hend']
    exact le_advertise_windowEnd { (t.measure len mss head).widen len memory with
      received := ((t.measure len mss head).widen len memory).received + len } memory
  · exact ⟨congrArg (· + len) hreceived', htransmitted', hend'.ge, hthreshold'⟩

theorem arrive_current (len mss memory head : Nat) : (t.arrive len mss memory head).Current := by
  unfold arrive
  dsimp only
  split <;> rfl

theorem Sound.measure {t : TcpTransport} (h : t.Sound) (len head : Nat) {mss : Nat}
    (hmss : mss ≤ t.threshold) : (t.measure len mss head).Sound := by
  -- of what a segment takes, its payload is at most the whole
  have hshare : satMul len 256 / (len + head) ≤ 256 := by
    refine Nat.div_le_of_le_mul ((Nat.min_le_left _ _).trans ?_)
    exact Nat.mul_le_mul_right 256 (Nat.le_add_right len head)
  have hreceive := h.receiveMss
  have hadvmss := t.advmss_pos
  unfold TcpTransport.measure
  dsimp only
  split
  · split
    · exact { h with
        ratio := ⟨Nat.le_max_right _ _, by dsimp only; omega⟩
        receiveMss := ⟨by dsimp only; omega, by dsimp only; omega⟩ }
    · exact { h with receiveMss := ⟨by dsimp only; omega, by dsimp only; omega⟩ }
  · exact h

theorem Sound.widen {t : TcpTransport} (h : t.Sound) (len memory : Nat) :
    (t.widen len memory).Sound := by
  have hthreshold := h.threshold
  have hreceive := h.receiveMss
  have hinitial := h.initialMss
  have hmax := h.maxWindow
  unfold TcpTransport.widen
  split
  · exact { h with
      threshold := by dsimp only; omega
      receiveMss := ⟨hreceive.1, by dsimp only; omega⟩
      initialMss := by dsimp only; omega
      maxWindow := by dsimp only; omega }
  · exact h

theorem Sound.arrive {t : TcpTransport} (h : t.Sound) (len memory head : Nat) {mss : Nat}
    (hmss : mss ≤ t.threshold) : (t.arrive len mss memory head).Sound := by
  have hgrown := (h.measure len head hmss).widen len memory
  have hreach := hgrown.reach
  have hle := hgrown.advertised
  have hreceived : Sound { (t.measure len mss head).widen len memory with
      received := ((t.measure len mss head).widen len memory).received + len } :=
    { hgrown with reach := by dsimp only; omega }
  unfold TcpTransport.arrive
  dsimp only
  split
  · exact hreceived.advertise memory
  · exact { hreceived with
      reach := Nat.le_refl _
      advertised := by dsimp only; omega }

/-! ## Sending -/

theorem Sound.next {t t' : TcpTransport} {seg : Segment} (h : t.Sound)
    (hnext : t.next = some (t', seg)) : t'.Sound := by
  obtain ⟨-, -, -, -, backlog, pushes, heq⟩ := next_spec hnext
  rw [heq]
  exact { h with }

theorem next_counters {t t' : TcpTransport} {seg : Segment} (hnext : t.next = some (t', seg)) :
    t'.received = t.received ∧ t'.windowEnd = t.windowEnd ∧ t'.threshold = t.threshold
      ∧ t'.advertised = t.advertised := by
  obtain ⟨-, -, -, -, backlog, pushes, heq⟩ := next_spec hnext
  rw [heq]
  exact ⟨rfl, rfl, rfl, rfl⟩

theorem new_opens {buffer : Nat} (hbuffer : 256 ≤ buffer) (mtu : Nat) (v6 : Bool) (gsoSize : Nat) :
    0 < (new buffer mtu v6 gsoSize).windowEnd := by
  generalize ht : new buffer mtu v6 gsoSize = t
  have hpos := t.advmss_pos
  have hwindow : t.windowEnd = firstWindow (buffer / 2) t.advmss := by rw [← ht]; rfl
  have hwhole : buffer / 2 > t.advmss → 0 < buffer / 2 / t.advmss * t.advmss :=
    fun hfits => Nat.mul_pos (Nat.div_pos hfits.le hpos) hpos
  rw [hwindow]
  unfold firstWindow
  split
  · next hfits =>
    omega
  · omega

end TcpTransport

end Snare.Stream
