import Snare.Lib.Runs
import Snare.Time.World

/-!
# Clock readings never decrease

`Clock.value` is the reading the clock gives at a real time, in whichever mode it is. Two facts
about a clock carry every operation:

* **`Clock.Bounded`**: everything fits 64 bits, and while the clock is driven neither the line's
  anchor nor a reading handed out is past the horizon;
* **`le_value`**: the reading is never below the anchor or a reading handed out.

So an operation keeps the reading (`Keeps`) if it leaves the line alone, or if it moves the anchor
or the floor to where the reading was or further (`keeps_of_le`). `readings_monotone` runs them.
-/

namespace Snare.Time

namespace Clock

def value (c : Clock) (real : Nat) : Nat := (c.peek real).2

def core (c : Clock) : Line × Nat × Bool × Bool × Nat :=
  (c.line, c.floor, c.driven, c.paused, c.stamp)

/-- Everything fits 64 bits, a driven clock's anchor and floor are within its horizon, and an
undriven one has no horizon and no open timestamp. -/
structure Bounded (c : Clock) : Prop where
  mono_le : c.monotonicNanos ≤ u64Max
  floor_le : c.floor ≤ u64Max
  horizon_le : c.horizon ≤ u64Max
  stamp_le : c.stamp ≤ u64Max
  driven : c.driven = true → c.monotonicNanos ≤ c.horizon ∧ c.floor ≤ c.horizon
  undriven : c.driven = false → c.horizon = u64Max ∧ c.stamp = 0

variable {c c' : Clock}

theorem bounded_of_driven (hd : c.driven = true) (hmono : c.monotonicNanos ≤ c.horizon)
    (hfloor : c.floor ≤ c.horizon) (hhor : c.horizon ≤ u64Max) (hstamp : c.stamp ≤ u64Max) :
    c.Bounded :=
  ⟨hmono.trans hhor, hfloor.trans hhor, hhor, hstamp, fun _ => ⟨hmono, hfloor⟩,
    fun hd' => absurd hd (by simp [hd'])⟩

theorem bounded_of_undriven (hd : c.driven = false) (hmono : c.monotonicNanos ≤ u64Max)
    (hfloor : c.floor ≤ u64Max) (hhor : c.horizon = u64Max) (hstamp : c.stamp = 0) : c.Bounded :=
  ⟨hmono, hfloor, hhor.le, hstamp ▸ Nat.zero_le _, fun hd' => absurd hd' (by simp [hd]),
    fun _ => ⟨hhor, hstamp⟩⟩

variable {real real' : Nat}

theorem valueAt_mono (l : Line) (h : real ≤ real') : l.valueAt real ≤ l.valueAt real' := by
  have hmul : (real - l.anchorReal) * l.rateQ32 ≤ (real' - l.anchorReal) * l.rateQ32 :=
    Nat.mul_le_mul_right _ (by omega)
  simp only [Line.valueAt]
  omega

theorem valueAt_le_horizon (l : Line) (real : Nat) : l.valueAt real ≤ l.horizon :=
  Nat.min_le_right _ _

theorem anchorV_le_valueAt (l : Line) (real : Nat) (hmax : l.anchorV ≤ u64Max)
    (hhor : l.anchorV ≤ l.horizon) : l.anchorV ≤ l.valueAt real := by
  simp only [Line.valueAt]
  omega

def onLine (c : Clock) : Bool := c.driven || !(c.paused || !c.isScaled)

theorem peek_eq (c : Clock) (real : Nat) :
    c.peek real = if c.onLine then c.lineValue real else (c, c.heldValue) := by
  unfold peek onLine
  cases c.driven <;> cases (c.paused || !c.isScaled) <;> rfl

theorem value_of_held (hl : c.onLine = false) (real : Nat) : c.value real = c.heldValue := by
  rw [value, peek_eq, hl]
  rfl

theorem value_of_line (hl : c.onLine = true) (real : Nat) :
    c.value real = max c.floor (c.line.valueAt real) := by
  rw [value, peek_eq, hl]
  rfl

theorem value_mono (c : Clock) (h : real ≤ real') : c.value real ≤ c.value real' := by
  cases hl : c.onLine with
  | true =>
    rw [value_of_line hl, value_of_line hl]
    have := valueAt_mono c.line h
    omega
  | false => rw [value_of_held hl, value_of_held hl]

theorem value_congr (hline : c'.line = c.line) (hfloor : c'.floor = c.floor)
    (hdriven : c'.driven = c.driven) (hpaused : c'.paused = c.paused) (real : Nat) :
    c'.value real = c.value real := by
  have hmono : c'.monotonicNanos = c.monotonicNanos := congrArg Line.anchorV hline
  have hrate : c'.rateQ32 = c.rateQ32 := congrArg Line.rateQ32 hline
  have hon : c'.onLine = c.onLine := by simp only [onLine, isScaled, hdriven, hpaused, hrate]
  cases hl : c.onLine with
  | true => rw [value_of_line hl, value_of_line (hon.trans hl), hline, hfloor]
  | false =>
    rw [value_of_held hl, value_of_held (hon.trans hl), heldValue, heldValue, hmono, hfloor]

theorem value_eq_of_core (h : c'.core = c.core) (real : Nat) : c'.value real = c.value real := by
  simp only [core, Prod.mk.injEq] at h
  obtain ⟨hline, hfloor, hdriven, hpaused, -⟩ := h
  exact value_congr hline hfloor hdriven hpaused real

theorem fireUpto_core (c : Clock) (from_ t : Nat) : (c.fireUpto from_ t).1.core = c.core := rfl

section

variable (h : c.Bounded)
include h

theorem Bounded.of_core (hcore : c'.core = c.core) : c'.Bounded := by
  simp only [core, Prod.mk.injEq] at hcore
  obtain ⟨hline, hfloor, hdriven, -, hstamp⟩ := hcore
  have hmono : c'.monotonicNanos = c.monotonicNanos := congrArg Line.anchorV hline
  have hhor : c'.horizon = c.horizon := congrArg Line.horizon hline
  refine ⟨?_, ?_, ?_, ?_, ?_, ?_⟩
  · exact hmono ▸ h.mono_le
  · exact hfloor ▸ h.floor_le
  · exact hhor ▸ h.horizon_le
  · exact hstamp ▸ h.stamp_le
  · rw [hmono, hfloor, hhor, hdriven]
    exact h.driven
  · rw [hhor, hdriven, hstamp]
    exact h.undriven

theorem Bounded.mono_le_horizon : c.monotonicNanos ≤ c.horizon := by
  cases hd : c.driven with
  | true => exact (h.driven hd).1
  | false => exact (h.undriven hd).1 ▸ h.mono_le

theorem Bounded.floor_le_horizon : c.floor ≤ c.horizon := by
  cases hd : c.driven with
  | true => exact (h.driven hd).2
  | false => exact (h.undriven hd).1 ▸ h.floor_le

theorem Bounded.le_value (real : Nat) : c.heldValue ≤ c.value real := by
  cases hl : c.onLine with
  | true =>
    have := anchorV_le_valueAt c.line real h.mono_le h.mono_le_horizon
    rw [value_of_line hl]
    simp only [heldValue, line] at *
    omega
  | false => rw [value_of_held hl]

theorem Bounded.value_le_horizon (real : Nat) : c.value real ≤ c.horizon := by
  cases hl : c.onLine with
  | true =>
    rw [value_of_line hl]
    exact max_le h.floor_le_horizon (valueAt_le_horizon c.line real)
  | false =>
    rw [value_of_held hl]
    exact max_le h.mono_le_horizon h.floor_le_horizon

end

/-! ## What keeps the reading -/

/-- The clock `c'` is well formed and reads at `real'` no less than `c` at `real`; an open timestamp
stays open, or is closed with the clock at it. -/
structure Keeps (real real' : Nat) (c c' : Clock) : Prop where
  bounded : c'.Bounded
  value_le : c.value real ≤ c'.value real'
  stamp : c'.stamp = c.stamp ∨ c'.stamp = 0 ∧ c.stamp ≤ c'.value real'

theorem Keeps.trans {r₁ r₂ r₃ : Nat} {c₁ c₂ c₃ : Clock} (h : Keeps r₁ r₂ c₁ c₂)
    (h' : Keeps r₂ r₃ c₂ c₃) : Keeps r₁ r₃ c₁ c₃ := by
  refine ⟨h'.bounded, h.value_le.trans h'.value_le, ?_⟩
  have hle := h'.value_le
  have hs := h.stamp
  have hs' := h'.stamp
  omega

theorem keeps_of_core (h : c.Bounded) (hle : real ≤ real')
    (hcore : c'.core = c.core) : Keeps real real' c c' :=
  ⟨h.of_core hcore, value_eq_of_core hcore real' ▸ c.value_mono hle,
    .inl (congrArg (·.2.2.2.2) hcore)⟩

theorem Keeps.core {c₁ : Clock} (h : Keeps real real' c c₁)
    (hcore : c'.core = c₁.core) : Keeps real real' c c' :=
  h.trans (keeps_of_core h.bounded le_rfl hcore)

theorem keeps_of_le (h : c'.Bounded) (hle : c.value real ≤ c'.heldValue)
    (hstamp : c'.stamp = c.stamp) (real' : Nat) : Keeps real real' c c' :=
  ⟨h, hle.trans (h.le_value real'), .inl hstamp⟩

/-- What a read leaves: the floor raised to the reading, and the rest as it was. -/
structure Peeked (c : Clock) (real : Nat) (c' : Clock) (now : Nat) : Prop where
  now_eq : now = c.value real
  eq_floor : c' = { c with floor := c'.floor }
  held_eq : c'.heldValue = now
  bounded : c'.Bounded

theorem Peeked.now_le {now : Nat} (h : Peeked c real c' now) : now ≤ u64Max :=
  h.held_eq ▸ max_le h.bounded.mono_le h.bounded.floor_le

theorem peek_of_line (hl : c.onLine = true) (real : Nat) :
    c.peek real = ({ c with floor := c.value real }, c.value real) := by
  rw [value_of_line hl, peek_eq, hl]
  rfl

theorem peek_of_held (hl : c.onLine = false) (real : Nat) : c.peek real = (c, c.value real) := by
  rw [value_of_held hl, peek_eq, hl]
  rfl

theorem Bounded.peeked {now : Nat} (h : c.Bounded)
    (hp : c.peek real = (c', now)) : Peeked c real c' now := by
  cases hl : c.onLine with
  | false =>
    rw [peek_of_held hl] at hp
    obtain ⟨rfl, rfl⟩ := Prod.mk.inj hp
    exact ⟨rfl, rfl, (value_of_held hl real).symm, h⟩
  | true =>
    rw [peek_of_line hl] at hp
    obtain ⟨rfl, rfl⟩ := Prod.mk.inj hp
    have hhor := h.value_le_horizon real
    have hheld := h.le_value real
    refine ⟨rfl, rfl, ?_, h.mono_le, hhor.trans h.horizon_le, h.horizon_le, h.stamp_le,
      fun hd => ⟨(h.driven hd).1, hhor⟩, h.undriven⟩
    simp only [heldValue] at hheld ⊢
    omega

/-! ## The operations -/

section Ops

variable {c c' : Clock} {real real' : Nat}

theorem Peeked.keeps {now : Nat} (hp : Peeked c real c' now) (real' : Nat) :
    Keeps real real' c c' :=
  keeps_of_le hp.bounded (by rw [hp.held_eq, hp.now_eq]) (by rw [hp.eq_floor]) real'

section

variable (h : c.Bounded)
include h

theorem Bounded.publish (hd : c.driven = false) (rate : Nat) (paused : Bool)
    {target : Nat → Nat} (htarget : ∀ now, now ≤ u64Max → now ≤ target now ∧ target now ≤ u64Max)
    (real' : Nat) : Keeps real real' c (c.publish real rate paused target) := by
  set now := if c.paused || !c.isScaled then c.heldValue
    else max (c.line.valueAt real) c.heldValue with hnow
  have hhor := (h.undriven hd).1
  have hline := valueAt_le_horizon c.line real
  have hmono := h.mono_le
  have hfloor := h.floor_le
  have hle : now ≤ u64Max := by
    have : c.line.horizon = u64Max := hhor
    rw [hnow]
    simp only [heldValue]
    split <;> omega
  have hge : c.value real ≤ now := by
    rw [hnow]
    split
    · next hheld => rw [value_of_held (by simp [onLine, hd, hheld])]
    · next hrun =>
      rw [value_of_line (by simp [onLine, hd, hrun])]
      simp only [heldValue]
      omega
  obtain ⟨htle, htmax⟩ := htarget now hle
  have hb : Bounded (c.publish real rate paused target) :=
    bounded_of_undriven hd (max_le hmono htmax) hfloor rfl (h.undriven hd).2
  have hheld : target now ≤ (c.publish real rate paused target).heldValue :=
    (le_max_right _ _).trans (le_max_left _ _)
  exact keeps_of_le hb (hge.trans (htle.trans hheld)) rfl real'

theorem Bounded.setRate (rate : Rate) (hle : real ≤ real') :
    Keeps real real' c (c.setRate real rate) := by
  have hid : ∀ now, now ≤ u64Max → now ≤ id now ∧ id now ≤ u64Max := fun _ h => ⟨le_rfl, h⟩
  have hsame : Keeps real real' c c := keeps_of_core h hle rfl
  cases hd : c.driven with
  | true => cases rate <;> simpa [Clock.setRate, hd] using hsame
  | false =>
    cases rate with
    | pause =>
      simp only [Clock.setRate, hd, Bool.false_or]
      split
      · exact hsame
      · exact h.publish hd _ _ hid real'
    | scaled q32 =>
      simp only [Clock.setRate, hd, Bool.false_eq_true, if_false]
      exact h.publish hd _ _ hid real'
    | base =>
      simp only [Clock.setRate, hd, Bool.false_eq_true, if_false]
      exact h.publish hd _ _ hid real'

theorem Bounded.resume (hle : real ≤ real') :
    Keeps real real' c (c.resume real) := by
  unfold Clock.resume
  split
  · exact keeps_of_core h hle rfl
  · next hrun =>
    have hd : c.driven = false := by simp_all
    exact h.publish hd _ _ (fun _ h => ⟨le_rfl, h⟩) real'

theorem Bounded.advanceBy (d : Nat) (hle : real ≤ real') :
    Keeps real real' c (c.advanceBy real d) := by
  unfold Clock.advanceBy
  split
  · exact keeps_of_core h hle rfl
  · next hrun =>
    have hd : c.driven = false := by simp_all
    exact h.publish hd _ _ (fun _ h => ⟨le_satAdd h d, satAdd_le _ d⟩) real'

theorem Bounded.setValue (value : Nat) :
    Keeps real real' c (c.setValue real real' value).1 := by
  rcases hp : c.peek real with ⟨c₁, now⟩
  have hpk := h.peeked hp
  have hk : Keeps real real' c c₁ := hpk.keeps real'
  simp only [Clock.setValue, hp]
  split
  · exact hk
  · next hd =>
    split
    · exact hk
    · split
      · -- the second sample re-anchors the line at the value or past it
        have htarget : ∀ n, n ≤ u64Max → n ≤ max n (satAdd c.origin value) ∧
            max n (satAdd c.origin value) ≤ u64Max :=
          fun n hn => ⟨le_max_left _ _, max_le hn (satAdd_le _ _)⟩
        exact hk.trans (hpk.bounded.publish (by simpa using hd) _ _ htarget real')
      · exact hk

end

variable {t : Nat}

theorem Bounded.raise (h : c.Bounded) (hd : c.driven = false) (ht : t ≤ u64Max)
    (hle : real ≤ real') :
    Keeps real real' c { c with monotonicNanos := max c.monotonicNanos t } := by
  set c' : Clock := { c with monotonicNanos := max c.monotonicNanos t } with hc'
  have hb : c'.Bounded :=
    bounded_of_undriven hd (max_le h.mono_le ht) h.floor_le (h.undriven hd).1 (h.undriven hd).2
  refine ⟨hb, (c.value_mono hle).trans ?_, .inl rfl⟩
  cases hl : c.onLine with
  | false =>
    rw [value_of_held hl, value_of_held (c := c') hl]
    simp only [heldValue, hc']
    omega
  | true =>
    rw [value_of_line hl, value_of_line (c := c') hl]
    simp only [line, Line.valueAt, hc']
    omega

theorem Bounded.stepBase (h : c.Bounded) (hd : c.driven = false) (hs : c.isScaled = false)
    (by_ real real' : Nat) : Keeps real real' c (c.stepBase by_).1 := by
  have hheld : c.heldValue ≤ u64Max := max_le h.mono_le h.floor_le
  have hstep := le_satAdd hheld by_
  have hb : (c.stepBase by_).1.Bounded :=
    bounded_of_undriven hd (satAdd_le _ _) (max_le h.floor_le (satAdd_le _ _)) (h.undriven hd).1
      (h.undriven hd).2
  refine keeps_of_le (c := c) hb ?_ rfl real'
  rw [value_of_held (by simp [onLine, hd, hs])]
  exact hstep.trans (le_max_left _ _)

theorem base_of_jumps (hj : c.jumps = true) : c.driven = false ∧ c.isScaled = false := by
  simp only [jumps, Bool.and_eq_true, Bool.not_eq_true'] at hj
  exact ⟨hj.1.2, hj.1.1.2⟩

theorem Bounded.advance (h : c.Bounded) : Keeps real real' c (c.advance real).1 := by
  unfold Clock.advance
  split
  · rcases hp : c.peek real with ⟨c₁, now⟩
    exact (h.peeked hp).keeps real'
  · next hj =>
    obtain ⟨hd, hs⟩ := base_of_jumps (by simpa using hj)
    exact h.stepBase hd hs 1000 real real'

theorem Bounded.jumpTo (h : c.Bounded) (wake : UInt64) (hle : real ≤ real') :
    Keeps real real' c (c.jumpTo wake.toNat) := by
  unfold Clock.jumpTo
  split
  · next hj => exact h.raise (base_of_jumps hj).1 (toNat_le_u64Max wake) hle
  · exact keeps_of_core h hle rfl

theorem Bounded.keeps_of_peek_core (h : c.Bounded) (hcore : c'.core = (c.peek real).1.core) :
    Keeps real real' c c' := by
  rcases hp : c.peek real with ⟨c₁, now⟩
  have hpk := h.peeked hp
  rw [hp] at hcore
  exact (hpk.keeps real').core hcore

theorem Peeked.keeps_line {c₁ : Clock} {now anchorV anchorReal rateQ32 horizon : Nat}
    (hp : Peeked c real c₁ now) (hanchor : now ≤ anchorV) (hhor : anchorV ≤ horizon)
    (hmax : horizon ≤ u64Max) (hd : c₁.driven = true) :
    Keeps real real' c (c₁.publishLine anchorV anchorReal rateQ32 horizon) := by
  have hheld := hp.held_eq
  simp only [heldValue] at hheld
  have hb : (c₁.publishLine anchorV anchorReal rateQ32 horizon).Bounded := by
    refine bounded_of_driven hd ?_ ?_ hmax hp.bounded.stamp_le <;>
    · simp only [publishLine]
      omega
  refine keeps_of_le hb ?_ (by rw [hp.eq_floor]; rfl) real'
  rw [← hp.now_eq]
  simp only [heldValue, publishLine]
  omega

theorem Bounded.attachDriven (h : c.Bounded) : Keeps real real' c (c.attachDriven real real') := by
  rcases hp : c.peek real with ⟨c₁, now⟩
  have hpk := h.peeked hp
  have hheld := hpk.held_eq
  have hmax := hpk.now_le
  simp only [Clock.attachDriven, hp]
  simp only [heldValue] at hheld
  -- the line is the one of a clock that is already driven
  have hb : Bounded
      { c₁.publishLine now real' 0 now with driven := true, paused := false } := by
    refine bounded_of_driven rfl ?_ ?_ hmax hpk.bounded.stamp_le <;>
    · simp only [publishLine]
      omega
  refine keeps_of_le hb ?_ (by rw [hpk.eq_floor]; rfl) real'
  rw [← hpk.now_eq]
  simp only [heldValue, publishLine]
  omega

theorem Bounded.detachDriven (h : c.Bounded) (hle : real ≤ real') :
    Keeps real real' c (c.detachDriven real real') := by
  unfold Clock.detachDriven
  split
  · exact keeps_of_core h hle rfl
  · rcases hp : c.peek real with ⟨c₁, now⟩
    have hpk := h.peeked hp
    have hheld := hpk.held_eq
    simp only [heldValue] at hheld
    have hmax := hpk.now_le
    have hstamp : c₁.stamp = c.stamp := by rw [hpk.eq_floor]
    have hsmax := h.stamp_le
    set c' : Clock := { c₁.publishLine (max now c₁.stamp) real' 0 u64Max with
      floor := max c₁.floor (max now c₁.stamp), stamp := 0, driven := false } with hc'
    have hb : c'.Bounded := by
      refine bounded_of_undriven rfl ?_ ?_ rfl rfl <;>
      · simp only [publishLine, hc']
        omega
    have hheld' : max now c.stamp ≤ c'.heldValue := by
      simp only [heldValue, publishLine, hc']
      omega
    have hval := hheld'.trans (hb.le_value real')
    have hk : Keeps real real' c c' :=
      ⟨hb, hpk.now_eq ▸ (le_max_left _ _).trans hval, .inr ⟨rfl, (le_max_right _ _).trans hval⟩⟩
    exact hk

theorem Bounded.grant (h : c.Bounded) {anchorV horizon : Nat} (hanchor : anchorV ≤ u64Max)
    (hhor : horizon ≤ u64Max) (anchorReal rateQ32 : Nat) (hle : real ≤ real') :
    Keeps real real' c (c.grant real real' anchorV anchorReal rateQ32 horizon) := by
  unfold Clock.grant
  split
  · exact keeps_of_core h hle rfl
  · next hd =>
    rcases hp : c.peek real with ⟨c₁, now⟩
    have hpk := h.peeked hp
    have hd₁ : c₁.driven = true := by rw [hpk.eq_floor]; simpa using hd
    have hmax := hpk.now_le
    simp only
    split
    · next hge => exact hpk.keeps_line hge (le_max_right _ _) (max_le hhor hanchor) hd₁
    · exact hpk.keeps_line le_rfl (le_max_right _ _) (max_le hhor hmax) hd₁

theorem Bounded.freeze (h : c.Bounded) (hle : real ≤ real') :
    Keeps real real' c (c.freeze real real') := by
  unfold Clock.freeze
  split
  · exact keeps_of_core h hle rfl
  · next hd =>
    rcases hp : c.peek real with ⟨c₁, now⟩
    have hpk := h.peeked hp
    have hd₁ : c₁.driven = true := by rw [hpk.eq_floor]; simpa using hd
    have hmax := hpk.now_le
    exact hpk.keeps_line le_rfl le_rfl hmax hd₁

theorem landing_le (c : Clock) (now t : Nat) (toNext : Bool) : c.landing now t toNext ≤ t := by
  unfold landing
  split
  · exact Nat.min_le_right _ _
  · exact le_rfl

theorem le_reach {dest : Nat} (h : dest ≤ u64Max) (past : Bool) :
    dest ≤ (if past then creepPast dest else dest) ∧
      (if past then creepPast dest else dest) ≤ u64Max := by
  cases past with
  | true => exact ⟨le_satAdd h 1, satAdd_le _ _⟩
  | false => exact ⟨le_rfl, h⟩

theorem Bounded.jumpDriven (h : c.Bounded) (ht : t ≤ u64Max) (toNext past : Bool) :
    Keeps real real' c (c.jumpDriven real real' t toNext past).1 := by
  rcases hp : c.peek real with ⟨c₁, now⟩
  have hpk := h.peeked hp
  have hmax := hpk.now_le
  simp only [Clock.jumpDriven, hp]
  split
  · exact hpk.keeps real'
  · next hd =>
    have hdest : max now (c₁.landing now t toNext) ≤ u64Max :=
      max_le hmax ((c₁.landing_le now t toNext).trans ht)
    obtain ⟨hreach, hreach'⟩ := le_reach hdest past
    exact hpk.keeps_line (le_max_left _ _) (hreach.trans (le_max_right _ _))
      (max_le hpk.bounded.horizon_le hreach') (by simpa using hd)

theorem creepPastTimerAt_eq (c : Clock) (t : Nat) :
    c.creepPastTimerAt t = c ∨ (c.stamp = 0 ∨ creepPast t < c.stamp) ∧
      c.creepPastTimerAt t = { c with horizon := creepPast t } := by
  unfold creepPastTimerAt
  simp only
  split
  · exact .inl rfl
  · next hstamp =>
    split
    · exact .inl rfl
    · exact .inr ⟨by omega, by simp [publishLine]⟩

theorem Bounded.creepPastTimerAt (h : c.Bounded) (hd : c.driven = true)
    (ht : t = c.horizon) : (c.creepPastTimerAt t).Bounded := by
  obtain ⟨hmono, hfloor⟩ := h.driven hd
  have hreach : c.horizon ≤ creepPast t := ht ▸ le_satAdd h.horizon_le 1
  rcases c.creepPastTimerAt_eq t with heq | ⟨-, heq⟩ <;> rw [heq]
  · exact h
  · exact bounded_of_driven hd (hmono.trans hreach) (hfloor.trans hreach) (satAdd_le _ _) h.stamp_le

theorem Bounded.chargeDriven (h : c.Bounded) (hd : c.driven = true) (latency : Nat) :
    Keeps real real' c (c.chargeDriven real latency).1 := by
  rcases hp : c.peek real with ⟨c₁, now⟩
  have hpk := h.peeked hp
  have hd₁ : c₁.driven = true := by rw [hpk.eq_floor]; exact hd
  simp only [Clock.chargeDriven, hp]
  split
  · exact hpk.keeps real'
  · next hafter =>
    set after := min (satAdd now latency) c₁.horizon
    set c₂ : Clock := { c₁ with floor := max c₁.floor after } with hc₂
    have hle : after ≤ c₁.horizon := Nat.min_le_right _ _
    obtain ⟨hmono, hfloor⟩ := hpk.bounded.driven hd₁
    have hb₂ : c₂.Bounded :=
      bounded_of_driven hd₁ hmono (max_le hfloor hle) hpk.bounded.horizon_le hpk.bounded.stamp_le
    have hheld : c.value real ≤ c₂.heldValue := by
      rw [← hpk.now_eq]
      simp only [heldValue, hc₂]
      omega
    have hstamp : c₂.stamp = c.stamp := by rw [hc₂, hpk.eq_floor]
    split
    · next hhor =>
      have hb₃ := hb₂.creepPastTimerAt hd₁ hhor
      have hk : Keeps real real' c (c₂.creepPastTimerAt after) := by
        rcases c₂.creepPastTimerAt_eq after with heq | ⟨-, heq⟩ <;> rw [heq] at hb₃ ⊢ <;>
        exact keeps_of_le hb₃ hheld hstamp real'
      exact hk.core (fireUpto_core _ _ _)
    · exact (keeps_of_le hb₂ hheld hstamp real').core (fireUpto_core _ _ _)

theorem Bounded.charge (h : c.Bounded) (latency : Nat) (hle : real ≤ real') :
    Keeps real real' c (c.charge real latency).1 := by
  unfold Clock.charge
  split
  · next hd => exact h.chargeDriven hd latency
  · next hd =>
    split
    · next hbase =>
      have hs : c.isScaled = false := by simp_all
      have hk := h.stepBase (by simpa using hd) hs latency real real'
      exact hk.core (fireUpto_core _ _ _)
    · exact keeps_of_core h hle rfl

theorem Bounded.spinStep (h : c.Bounded) (step : Nat) (hle : real ≤ real') :
    Keeps real real' c (c.spinStep real real' step).1 := by
  unfold Clock.spinStep
  split
  · exact keeps_of_core h hle rfl
  · next hrun =>
    split
    · exact keeps_of_core h hle rfl
    · next hbase =>
      have hd : c.driven = false := by simp_all
      have hs : c.isScaled = false := by simp_all
      rcases hp : c.peek real with ⟨c₁, now⟩
      have hpk := h.peeked hp
      have hk : Keeps real real' c c₁ := hpk.keeps real'
      simp only
      generalize (if c₁.spinDueSince = 0 then max real' 1 else c₁.spinDueSince) = since
      split
      · exact hk.core rfl
      · have hk₂ : Keeps real real' c { c₁ with spinDueSince := 0 } := hk.core rfl
        have hd₁ : c₁.driven = false := by rw [hpk.eq_floor, hd]
        have hs₁ : c₁.isScaled = false := by rw [hpk.eq_floor]; exact hs
        have hstep := fun landing => hk₂.bounded.stepBase hd₁ hs₁ landing real' real'
        exact (hk₂.trans (hstep _)).core (fireUpto_core _ _ _)

theorem skipToNextDeadline_core (c : Clock) (real real' gone : Nat) :
    (c.skipToNextDeadline real real' gone).1.core = (c.peek real).1.core ∨
      ∃ next, (c.skipToNextDeadline real real' gone).1.core =
        { (c.peek real).1 with
          monotonicNanos := max (c.peek real).1.monotonicNanos (creepPast next) }.core := by
  unfold skipToNextDeadline
  simp only
  split
  · exact .inl rfl
  · split
    · exact .inl rfl
    · split
      · exact .inl rfl
      · exact .inr ⟨_, rfl⟩

theorem advanceToNextAnyDeadline_core (c : Clock) (real real' gone : Nat) :
    (c.advanceToNextAnyDeadline real real' gone).1.core = c.core ∨ c.driven = false ∧
        ((c.advanceToNextAnyDeadline real real' gone).1.core = (c.peek real).1.core ∨
          ∃ next, (c.advanceToNextAnyDeadline real real' gone).1.core =
            { (c.peek real).1 with
              monotonicNanos := max (c.peek real).1.monotonicNanos (creepPast next) }.core) := by
  unfold advanceToNextAnyDeadline
  simp only
  split
  · exact .inl rfl
  · next hrun =>
    refine .inr ⟨by simp_all, ?_⟩
    split
    · exact .inl rfl
    · split
      · exact .inl rfl
      · split
        · exact .inl rfl
        · exact .inr ⟨_, rfl⟩

section

variable (h : c.Bounded)
include h

theorem Bounded.keeps_of_skip (hd : c.driven = false)
    (hcore : c'.core = (c.peek real).1.core ∨ ∃ next, c'.core =
      { (c.peek real).1 with
        monotonicNanos := max (c.peek real).1.monotonicNanos (creepPast next) }.core) :
    Keeps real real' c c' := by
  rcases hcore with hcore | ⟨next, hcore⟩
  · exact h.keeps_of_peek_core hcore
  · rcases hp : c.peek real with ⟨c₁, now⟩
    have hpk := h.peeked hp
    rw [hp] at hcore
    have hd₁ : c₁.driven = false := by rw [hpk.eq_floor]; exact hd
    have hraise := hpk.bounded.raise hd₁ (satAdd_le next 1) (le_refl real')
    exact ((hpk.keeps real').trans hraise).core hcore

theorem Bounded.advanceToNextDeadline (gone : Nat) (hle : real ≤ real') :
    Keeps real real' c (c.advanceToNextDeadline real real' gone).1 := by
  unfold Clock.advanceToNextDeadline
  split
  · exact keeps_of_core h hle rfl
  · next hrun =>
    split
    · exact h.keeps_of_peek_core rfl
    · split
      · exact keeps_of_core h hle rfl
      · exact h.keeps_of_skip (by simp_all) (skipToNextDeadline_core c real real' gone)

theorem Bounded.advanceToNextAnyDeadline (gone : Nat) (hle : real ≤ real') :
    Keeps real real' c (c.advanceToNextAnyDeadline real real' gone).1 := by
  rcases c.advanceToNextAnyDeadline_core real real' gone with hcore | ⟨hd, hcore⟩
  · exact keeps_of_core h hle hcore
  · exact h.keeps_of_skip hd hcore

theorem Bounded.setDormant (on : Bool) (hle : real ≤ real') :
    Keeps real real' c (c.setDormant real real' on) := by
  cases on with
  | true => exact h.keeps_of_peek_core rfl
  | false => exact keeps_of_core h hle rfl

theorem Bounded.holdOutside (on : Bool) (hle : real ≤ real') :
    Keeps real real' c (c.holdOutside real real' on) := by
  unfold Clock.holdOutside
  split
  · exact keeps_of_core h hle rfl
  · split
    · exact h.keeps_of_peek_core rfl
    · exact keeps_of_core h hle rfl

theorem Bounded.registerTimer (after : Nat) (foreign event : Bool) (me : Nat)
    (hle : real ≤ real') : Keeps real real' c (c.registerTimer real after foreign event me).1 := by
  unfold Clock.registerTimer
  split
  · exact keeps_of_core h hle rfl
  · simp only
    split
    · exact h.keeps_of_peek_core rfl
    · split
      · exact h.keeps_of_peek_core rfl
      · exact h.keeps_of_peek_core rfl

theorem Bounded.registerWake (at_ id : Nat) (foreign : Bool) (owner : Option Nat)
    (hle : real ≤ real') : Keeps real real' c (c.registerWake at_ id foreign owner).1 := by
  unfold Clock.registerWake
  split
  · exact keeps_of_core h hle rfl
  · split <;> exact keeps_of_core h hle rfl

theorem Bounded.releaseHeld (hle : real ≤ real') : Keeps real real' c (c.releaseHeld real) := by
  unfold Clock.releaseHeld
  split
  · exact keeps_of_core h hle rfl
  · simp only
    split <;> exact h.keeps_of_peek_core rfl

theorem Bounded.releaseHeld_of_core (hcore : c'.core = c.core) (hle : real ≤ real') :
    Keeps real real' c (c'.releaseHeld real) :=
  (keeps_of_core h (le_refl real) hcore).trans ((h.of_core hcore).releaseHeld hle)

theorem Bounded.cancelWake (id : Nat) (hle : real ≤ real') :
    Keeps real real' c (c.cancelWake real id).1 := by
  unfold Clock.cancelWake
  split
  · exact h.releaseHeld_of_core rfl hle
  · exact keeps_of_core h hle rfl
  · split
    · exact h.releaseHeld_of_core rfl hle
    · exact keeps_of_core h hle rfl
    · exact keeps_of_core h hle rfl

theorem Bounded.unregisterTimer (wake : Nat) (foreign : Bool) (me : Nat)
    (hle : real ≤ real') : Keeps real real' c (c.unregisterTimer real wake foreign me) := by
  refine h.releaseHeld_of_core ?_ hle
  cases foreign <;> cases c.pending.unregisterTimer wake me <;>
    cases c.foreign.unregisterTimer wake me <;> rfl

theorem Bounded.apply (hle : real ≤ real') (wakeId : Nat) (op : Op) :
    Keeps real real' c (c.apply real real' wakeId op).1 := by
  cases op with
  | peek => exact h.keeps_of_peek_core rfl
  | advance => exact h.advance
  | setRate rate => exact h.setRate rate hle
  | resume => exact h.resume hle
  | advanceBy d => exact h.advanceBy _ hle
  | setValue value => exact h.setValue _
  | charge latency => exact h.charge _ hle
  | spinStep step => exact h.spinStep _ hle
  | advanceToNextDeadline gone => exact h.advanceToNextDeadline gone hle
  | advanceToNextAnyDeadline gone => exact h.advanceToNextAnyDeadline gone hle
  | jumpTo wake => exact h.jumpTo wake hle
  | setDormant on => exact h.setDormant on hle
  | holdOutside on => exact h.holdOutside on hle
  | holdChild => exact (h.holdOutside true hle).core rfl
  | releaseChild => exact keeps_of_core h hle rfl
  | attachDriven => exact h.attachDriven
  | detachDriven => exact h.detachDriven hle
  | grant anchorV anchorReal rateQ32 horizon =>
    exact h.grant (toNat_le_u64Max anchorV) (toNat_le_u64Max horizon) _ _ hle
  | freeze => exact h.freeze hle
  | jumpDriven t toNext past => exact h.jumpDriven (toNat_le_u64Max t) toNext past
  | addPending wake me => exact keeps_of_core h hle rfl
  | registerTimer after foreign event me => exact h.registerTimer _ foreign event me hle
  | registerWake at_ foreign owner => exact h.registerWake _ wakeId foreign owner hle
  | cancelWake id => exact h.cancelWake id hle
  | unregisterTimer wake foreign me => exact h.unregisterTimer _ foreign me hle
  | unregisterEvent wake => exact keeps_of_core h hle rfl
  | wakeDue => exact h.keeps_of_peek_core rfl
  | takeUpto foreign upto => cases foreign <;> exact keeps_of_core h hle rfl
  | takeWakers t => exact keeps_of_core h hle rfl
  | fireUpto from_ t => exact keeps_of_core h hle rfl
  | otherWakeId => exact keeps_of_core h hle rfl

end

theorem advance_of_not_jumps (hj : c.jumps = false) :
    (c.advance real).2 = max (c.value real) c.stamp := by
  simp only [Clock.advance, hj, Bool.not_false, if_true, value]

theorem Bounded.reading_between (h : c.Bounded) (hstamp : c.stamp = 0) (hle : real ≤ real')
    {wakeId v : Nat} {op : Op} (hr : (c.apply real real' wakeId op).2.reading = some v) :
    c.value real ≤ v ∧ v ≤ (c.apply real real' wakeId op).1.value real' := by
  have hk := h.apply hle wakeId op
  cases op with
  | peek =>
    obtain rfl : c.value real = v := Option.some.inj hr
    exact ⟨le_rfl, hk.value_le⟩
  | advance =>
    obtain rfl : (c.advance real).2 = v := Option.some.inj hr
    cases hj : c.jumps with
    | false =>
      rw [advance_of_not_jumps hj, hstamp, Nat.max_zero]
      exact ⟨le_rfl, hk.value_le⟩
    | true =>
      obtain ⟨hd, hs⟩ := base_of_jumps hj
      have hval : (c.advance real).2 = satAdd c.heldValue 1000 := by
        simp [Clock.advance, hj, Clock.stepBase, heldValue]
      have hheld : (c.advance real).2 ≤ (c.advance real).1.heldValue := by
        simp only [Clock.advance, hj, Bool.not_true, Bool.false_eq_true, if_false]
        exact le_max_left _ _
      refine ⟨?_, hheld.trans (hk.bounded.le_value real')⟩
      rw [hval, value_of_held (by simp [onLine, hd, hs])]
      exact le_satAdd (max_le h.mono_le h.floor_le) 1000
  | takeUpto foreign upto => cases foreign <;> simp [Clock.apply] at hr
  | _ => simp [Clock.apply] at hr

end Ops

end Clock

/-! ## Runs -/

def World.readings : World → List Action → List Nat :=
  Runs.outputs World.step fun w a => (w.effect a).reading

def World.Plain (w : World) : Prop := w.clock.Bounded ∧ w.clock.stamp = 0

variable {w : World}

theorem World.Plain.keeps (h : w.Plain) (a : Action) :
    Clock.Keeps w.real (w.step a).real w.clock (w.step a).clock :=
  (Clock.keeps_of_core h.1 (Nat.le_add_right _ a.wait) rfl).trans
    (h.1.apply (Nat.le_add_right _ a.wait') w.wakeId a.op)

theorem World.Plain.step (h : w.Plain) (a : Action) : (w.step a).Plain := by
  have hk := h.keeps a
  refine ⟨hk.bounded, ?_⟩
  rcases hk.stamp with hs | ⟨hs, -⟩
  · rw [hs, h.2]
  · exact hs

theorem World.plain_begin (discrete deterministic : Bool) (monotonic realtime : UInt64)
    (real wakeId : Nat) :
    (World.begin discrete deterministic monotonic realtime real wakeId).Plain := by
  refine ⟨Clock.bounded_of_undriven rfl ?_ ?_ rfl rfl, rfl⟩ <;>
  · simp only [World.begin, Clock.begin, Clock.startAt]
    split <;> omega

theorem World.Plain.reading_between (h : w.Plain) {a : Action} {v : Nat}
    (hv : (w.effect a).reading = some v) :
    w.clock.value w.real ≤ v ∧ v ≤ (w.step a).clock.value (w.step a).real := by
  have hbetween := h.1.reading_between h.2 (Nat.le_add_right _ a.wait') hv
  exact ⟨(w.clock.value_mono (Nat.le_add_right _ a.wait)).trans hbetween.1, hbetween.2⟩

/-- **Readings never decrease, and a driven clock never reads past its horizon.** In every run of a
sim's clock without timestamps, whatever its operations and however real time passes between their
samples. -/
theorem readings_monotone (discrete deterministic : Bool) (monotonic realtime : UInt64)
    (real wakeId : Nat) (as : List Action) :
    ((World.begin discrete deterministic monotonic realtime real wakeId).readings as).Pairwise
      (· ≤ ·) ∧
      Runs.Always World.step (fun w => w.clock.driven = true → ∀ real,
          (w.clock.peek real).2 ≤ w.clock.horizon ∧ (w.clock.advance real).2 ≤ w.clock.horizon)
        (World.begin discrete deterministic monotonic realtime real wakeId) as := by
  have hbegin := World.plain_begin discrete deterministic monotonic realtime real wakeId
  constructor
  · have hall := Runs.along_of_step (I := World.Plain) (C := fun _ _ => True)
      (fun w a h => World.Plain.step h a) (fun _ _ _ => trivial) hbegin as
    exact (Runs.outputs_pairwise (I := World.Plain) (fun w a h _ => h.step a)
      (fun w a h _ => (h.keeps a).value_le) (fun w a v h _ => h.reading_between) hbegin hall).1
  refine (Runs.always_of_step (I := World.Plain) (fun w a h => World.Plain.step h a) hbegin as).imp
    ?_
  intro w h hd real
  have hval := h.1.value_le_horizon real
  refine ⟨hval, ?_⟩
  rw [Clock.advance_of_not_jumps (by simp [Clock.jumps, hd]), h.2, Nat.max_zero]
  exact hval

end Snare.Time
