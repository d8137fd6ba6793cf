import Snare.Time.Skips
import Snare.Time.TimerIndex

/-!
# Spin steps stop short of timers

A participant that spins on the clock moves it along itself, one step at a time. Two rules keep the
step from running over what other participants wait for:

* **short of it first** — a step that would reach the earliest participant timer ahead lands 1 ns
  short of it, and the next lands just past it (`spinLanding_of_next`, `Spun`);
* **within the grant** — a driven clock is not moved by a spin at all, and a charge carries it to
  its horizon at most, which creeps on 1 ns only past a participant timer exactly there
  (`charge_within`).
-/

namespace Snare.Time

/-! ## Timers ahead -/

theorem get?_fireUpto_of_lt (t : Timers) (hold foreign : Bool) (from_ : Nat) {upto d : Nat}
    (hlt : upto < d) :
    (t.fireUpto hold foreign from_ upto).1.entries.get? d = t.entries.get? d := by
  have hfire : ∀ (due : List Nat) (acc : Timers × Nat × List Nat), (∀ at_ ∈ due, at_ ≤ upto) →
      (due.foldl (Timers.fireAt hold foreign from_) acc).1.entries.get? d =
        acc.1.entries.get? d := by
    intro due
    induction due with
    | nil => exact fun _ _ => rfl
    | cons at_ due ih =>
      intro acc hdue
      have hne : d ≠ at_ := by
        have := hdue at_ List.mem_cons_self
        omega
      rw [List.foldl_cons, ih _ fun x hx => hdue x (List.mem_cons_of_mem _ hx)]
      obtain ⟨t, count, wakers⟩ := acc
      unfold Timers.fireAt
      cases he : t.entries.get? at_ with
      | none => simp only [he]
      | some e =>
        cases htake : Timers.takeWakersAt
            { t with entries := t.entries.insert at_ { e with events := 0 } } at_ hold with
        | none => simp only [he, htake]
        | some p =>
          simp only [he, htake]
          rw [dropEmpty_get?_ne _ hne, takeWakersAt_get?_ne htake hne, SortedMap.get?_insert,
            if_neg hne]
  refine hfire _ (t, 0, []) fun at_ hat => ?_
  obtain ⟨e, he, rfl⟩ := List.mem_map.mp hat
  simpa using (List.mem_filter.mp he).2

theorem Timers.nextAfter_eq_some {t : Timers} {now at_ : Nat} (h : t.nextAfter now = some at_) :
    at_ ∈ t.entries.keys ∧ satAdd now 1 ≤ at_ ∧
      ∀ d ∈ t.entries.keys, satAdd now 1 ≤ d → at_ ≤ d := by
  obtain ⟨e, he, rfl⟩ := Option.map_eq_some_iff.mp h
  refine ⟨List.mem_map_of_mem (List.mem_of_find?_eq_some he), by simpa using List.find?_some he,
    fun d hd hle => ?_⟩
  obtain ⟨e', he', rfl⟩ := List.mem_map.mp hd
  exact SortedMap.find?_least he he' (by simpa using hle)

theorem Timers.nextAfter_eq_none {t : Timers} {now d : Nat} (h : t.nextAfter now = none)
    (hd : d ∈ t.entries.keys) : d < satAdd now 1 := by
  obtain ⟨e, he, rfl⟩ := List.mem_map.mp hd
  have := List.find?_eq_none.mp (Option.map_eq_none_iff.mp h) e he
  simpa using this

namespace Clock

/-! ## Where a spin step lands -/

/-- Where a spin step from the reading `now` of a discrete clock lands. -/
def spinLanding (c : Clock) (now step : Nat) : Nat :=
  match c.pending.nextAfter now with
  | some at_ =>
    if satAdd now (max step 1) ≥ at_ ∧ now < at_ - 1 then at_ - 1
    else if satAdd now (max step 1) ≥ at_ then creepPast at_
    else satAdd now (max step 1)
  | none => satAdd now (max step 1)

abbrev NextTimer (c : Clock) (at_ : Nat) : Prop := c.Earliest false at_

variable {c : Clock}

section

variable (hv : c.heldValue ≤ u64Max)
include hv

theorem spinLanding_le (step : Nat) :
    c.heldValue ≤ c.spinLanding c.heldValue step ∧ c.spinLanding c.heldValue step ≤ u64Max := by
  have htarget : satAdd c.heldValue (max step 1) = min (c.heldValue + max step 1) u64Max := rfl
  unfold spinLanding
  cases hfound : c.pending.nextAfter c.heldValue with
  | none => simp only; omega
  | some x =>
    have hxle := (Timers.nextAfter_eq_some hfound).2.1
    have hcreep : creepPast x = min (x + 1) u64Max := rfl
    simp only [satAdd] at hxle
    simp only
    split
    · omega
    · split <;> omega

/-- **The landing.** 1 ns short of the next timer at most, unless the reading is there already: then
just past it. -/
theorem spinLanding_of_next {at_ : Nat}
    (hnext : c.NextTimer at_) (step : Nat) : (c.heldValue + 1 < at_ →
      c.spinLanding c.heldValue step = min (satAdd c.heldValue (max step 1)) (at_ - 1)) ∧
    (c.heldValue + 1 = at_ → c.spinLanding c.heldValue step = creepPast at_) := by
  obtain ⟨hmem, hahead, hleast⟩ := hnext
  have hmem : at_ ∈ c.pending.entries.keys := by simpa [deadlines] using hmem
  have hcreep : creepPast at_ = min (at_ + 1) u64Max := rfl
  have htarget : satAdd c.heldValue (max step 1) = min (c.heldValue + max step 1) u64Max := rfl
  have hone : satAdd c.heldValue 1 = min (c.heldValue + 1) u64Max := rfl
  rcases Nat.lt_or_ge c.heldValue u64Max with hlt | htop
  · unfold spinLanding
    cases hfound : c.pending.nextAfter c.heldValue with
    | none => exact absurd (Timers.nextAfter_eq_none hfound hmem) (by omega)
    | some x =>
      obtain ⟨hx, hxle, hxleast⟩ := Timers.nextAfter_eq_some hfound
      obtain rfl : at_ = x := Nat.le_antisymm
        (hleast x (by simpa [deadlines] using hx) (by omega)) (hxleast at_ hmem (by omega))
      simp only
      constructor
      · intro hshort
        split
        · omega
        · split <;> omega
      · intro hpast
        rw [if_neg (by omega)]
        split <;> omega
  · -- at the top of the range the step stays
    have hland := spinLanding_le hv step
    constructor <;> intro _ <;> omega

theorem spinLanding_of_none
    (hnone : ∀ d ∈ c.pending.entries.keys, d ≤ c.heldValue) (step : Nat) :
    c.spinLanding c.heldValue step = satAdd c.heldValue (max step 1) := by
  unfold spinLanding
  cases hfound : c.pending.nextAfter c.heldValue with
  | none => rfl
  | some x =>
    obtain ⟨hx, hxle, -⟩ := Timers.nextAfter_eq_some hfound
    have hxnow := hnone x hx
    have hcreep : creepPast x = min (x + 1) u64Max := rfl
    have htarget : satAdd c.heldValue (max step 1) = min (c.heldValue + max step 1) u64Max := rfl
    simp only [satAdd] at hxle
    simp only
    split
    · omega
    · split <;> omega

end

/-! ## One step -/

def SpinStep.isMoved : SpinStep → Bool
  | .moved _ => true
  | _ => false

/-- **What a spin step that moves a discrete clock does to its reading.** -/
structure Spun (c c' : Clock) (step : Nat) : Prop where
  /-- Stopped 1 ns short of the next timer, if it reaches that far. -/
  short : ∀ at_, c.NextTimer at_ → c.heldValue + 1 < at_ →
    c'.heldValue = min (satAdd c.heldValue (max step 1)) (at_ - 1)
  /-- From there it lands just past it. -/
  past : ∀ at_, c.NextTimer at_ → c.heldValue + 1 = at_ → c'.heldValue = creepPast at_
  /-- With no timer ahead it takes the whole step. -/
  free : (∀ d ∈ c.pending.entries.keys, d ≤ c.heldValue) →
    c'.heldValue = satAdd c.heldValue (max step 1)
  /-- No timer further ahead than 1 ns is passed. -/
  within : ∀ d ∈ c.pending.entries.keys, c.heldValue + 1 < d → c'.heldValue ≤ d

theorem exists_nextTimer {d : Nat} (hd : d ∈ c.pending.entries.keys)
    (hlt : c.heldValue < d) (hv : c.heldValue < u64Max) : ∃ at_, c.NextTimer at_ ∧ at_ ≤ d := by
  have hone : satAdd c.heldValue 1 = c.heldValue + 1 := by simp only [satAdd]; omega
  cases hfound : c.pending.nextAfter c.heldValue with
  | none => exact absurd (Timers.nextAfter_eq_none hfound hd) (by omega)
  | some x =>
    obtain ⟨hx, hxle, hxleast⟩ := Timers.nextAfter_eq_some hfound
    refine ⟨x, ⟨by simpa [deadlines] using hx, by omega, fun d' hd' hlt' => ?_⟩,
      hxleast d hd (by omega)⟩
    exact hxleast d' (by simpa [deadlines] using hd') (by omega)

variable {step : Nat}

section

variable (hv : c.heldValue ≤ u64Max)
include hv

theorem spun_of_landing {c' : Clock}
    (hland : c'.heldValue = c.spinLanding c.heldValue step) : Spun c c' step where
  short at_ hnext hlt := hland.trans ((spinLanding_of_next hv hnext step).1 hlt)
  past at_ hnext heq := hland.trans ((spinLanding_of_next hv hnext step).2 heq)
  free hnone := hland.trans (spinLanding_of_none hv hnone step)
  within d hd hlt := by
    rcases Nat.lt_or_ge c.heldValue u64Max with hv' | htop
    · obtain ⟨at_, hnext, hle⟩ := exists_nextTimer hd (by omega) hv'
      have hahead := hnext.2.1
      obtain ⟨hshort, hpast⟩ := spinLanding_of_next hv hnext step
      rcases Nat.lt_or_ge (c.heldValue + 1) at_ with hfar | hnear
      · rw [hland, hshort hfar]
        omega
      · -- the next timer is 1 ns ahead, so `d` is further on and the landing is at `d` at most
        have hcreep : creepPast at_ = min (at_ + 1) u64Max := rfl
        rw [hland, hpast (by omega)]
        omega
    · have := (spinLanding_le hv step).2
      omega

theorem spinStep_cases {real real' : Nat} {out : Clock × SpinStep × List Nat}
    (hout : c.spinStep real real' step = out) :
    out.2.1.isMoved = false ∧ out.1.core = c.core ∨ out.2.1.isMoved = true ∧ c.driven = false ∧
        out.1.heldValue = c.spinLanding c.heldValue step ∧
        out.1.pending = (c.pending.fireUpto (!c.deterministic) false c.heldValue
          (c.spinLanding c.heldValue step)).1 := by
  unfold spinStep at hout
  split at hout
  · subst hout; exact .inl ⟨rfl, rfl⟩
  · rename_i hheld
    have hheld : c.paused = false ∧ c.driven = false := by simpa using hheld
    split at hout
    · subst hout; exact .inl ⟨rfl, rfl⟩
    · rename_i hruns
      have hruns : c.discrete = true ∧ c.isScaled = false := by simpa using hruns
      have hl : c.onLine = false := by simp [onLine, hheld, hruns]
      rw [peek_of_held hl, value_of_held hl] at hout
      simp only at hout
      generalize (if c.spinDueSince = 0 then max real' 1 else c.spinDueSince) = since at hout
      split at hout
      · subst hout; exact .inl ⟨rfl, rfl⟩
      · refine .inr ?_
        have hland := spinLanding_le hv step
        -- the step is taken from the reading, so it ends on the landing
        have hafter : satAdd (max c.monotonicNanos c.floor)
            (c.spinLanding c.heldValue step - c.heldValue) = c.spinLanding c.heldValue step := by
          have hmax : max c.monotonicNanos c.floor = c.heldValue := rfl
          rw [hmax, satAdd]
          omega
        have hheld' : max (satAdd (max c.monotonicNanos c.floor)
            (c.spinLanding c.heldValue step - c.heldValue)) (max c.floor
            (satAdd (max c.monotonicNanos c.floor)
              (c.spinLanding c.heldValue step - c.heldValue))) =
            c.spinLanding c.heldValue step := by
          have hfloor : c.floor ≤ c.heldValue := Nat.le_max_right _ _
          rw [hafter]
          omega
        subst hout
        refine ⟨rfl, hheld.2, hheld', ?_⟩
        have hpending : ∀ after, after = c.spinLanding c.heldValue step →
            (c.pending.fireUpto (!c.deterministic) false c.heldValue after).1 =
              (c.pending.fireUpto (!c.deterministic) false c.heldValue
                (c.spinLanding c.heldValue step)).1 := fun _ h => by rw [h]
        exact hpending _ hafter

/-- **The step after.** Once a step has stopped short of a timer, the next one that moves the clock
lands just past it. -/
theorem spinStep_again {real real' at_ : Nat}
    (hmoved : (c.spinStep real real' step).2.1.isMoved = true) (hnext : c.NextTimer at_)
    (hstop : (c.spinStep real real' step).1.heldValue = at_ - 1) :
    (c.spinStep real real' step).1.NextTimer at_ ∧
      (c.spinStep real real' step).1.heldValue + 1 = at_ := by
  obtain ⟨hmem, hahead, hleast⟩ := hnext
  rcases spinStep_cases hv (rfl : c.spinStep real real' step = _) with ⟨hno, -⟩ | ⟨-, -, hheld, hp⟩
  · rw [hmoved] at hno; nomatch hno
  · generalize hc' : (c.spinStep real real' step).1 = c' at *
    have hland : c.spinLanding c.heldValue step = at_ - 1 := hheld.symm.trans hstop
    have hkeys : ∀ d, at_ - 1 < d → (d ∈ c'.pending.entries.keys ↔ d ∈ c.pending.entries.keys) := by
      intro d hd
      rw [SortedMap.mem_keys_iff, SortedMap.mem_keys_iff, hp, hland, get?_fireUpto_of_lt _ _ _ _ hd]
    have hmem : at_ ∈ c.pending.entries.keys := by simpa [deadlines] using hmem
    refine ⟨⟨?_, by omega, fun d hd hlt => ?_⟩, by omega⟩
    · simpa [deadlines] using (hkeys at_ (by omega)).mpr hmem
    · have hd : d ∈ c'.pending.entries.keys := by simpa [deadlines] using hd
      have hd : d ∈ c.pending.entries.keys := (hkeys d (by omega)).mp hd
      exact hleast d (by simpa [deadlines] using hd) (by omega)

end

/-! ## Driven clocks -/

/-- What a driven clock may read at `later`: what it would have read, no more than its horizon, or
than just past a participant timer exactly there. -/
def Within (c c' : Clock) (later : Nat) : Prop :=
  c'.value later = c.value later ∨ c'.value later ≤ c.horizon ∨
    c.horizon ∈ c.pending.entries.keys ∧ c'.value later ≤ creepPast c.horizon

theorem value_driven (hd : c.driven = true) (later : Nat) :
    c.value later = max c.floor (c.line.valueAt later) :=
  value_of_line (by simp [onLine, hd]) later

theorem value_driven_le {bound later : Nat} (hd : c.driven = true)
    (hfloor : c.floor ≤ bound) (hhor : c.horizon ≤ bound) : c.value later ≤ bound := by
  have hline : c.line.valueAt later ≤ c.horizon := valueAt_le_horizon c.line later
  rw [value_driven hd]
  omega

theorem creepPastTimerAt_cases (c : Clock) (t : Nat) :
    c.creepPastTimerAt t = c ∨ t ∈ c.pending.entries.keys ∧
      (c.creepPastTimerAt t).driven = c.driven ∧ (c.creepPastTimerAt t).floor = c.floor ∧
      (c.creepPastTimerAt t).horizon = creepPast t := by
  unfold creepPastTimerAt
  simp only
  split
  · exact .inl rfl
  · split
    · exact .inl rfl
    · rename_i hget
      refine .inr ⟨?_, rfl, rfl, rfl⟩
      obtain ⟨e, he⟩ := Option.ne_none_iff_exists'.mp (by simpa using hget)
      exact SortedMap.mem_keys_iff.mpr ⟨e, he⟩

theorem charge_within (hd : c.driven = true) (real latency : Nat) {later : Nat}
    (hlater : real ≤ later) : Within c (c.charge real latency).1 later := by
  have hpeek : c.peek real = ({ c with floor := c.value real }, c.value real) := by
    rw [value_driven hd, peek, if_pos hd]
    rfl
  generalize hout : c.charge real latency = out
  unfold charge at hout
  rw [if_pos hd] at hout
  unfold chargeDriven at hout
  rw [hpeek] at hout
  simp only at hout
  split at hout
  · -- nothing moved: the clock was read
    subst hout
    refine .inl ?_
    have hread : ({ c with floor := c.value real } : Clock).value later =
        max (c.value real) (c.line.valueAt later) :=
      value_driven (c := { c with floor := c.value real }) hd later
    have hmono := valueAt_mono c.line hlater
    have hreal := value_driven hd real
    have hnow := value_driven hd later
    exact hread.trans (by omega)
  · rename_i hafter
    set after := min (satAdd (c.value real) latency) c.horizon
    set c₁ : Clock := { c with floor := max (c.value real) after }
    have hfloor : c₁.floor ≤ c.horizon := by
      change max (c.value real) after ≤ c.horizon
      omega
    refine .inr ?_
    split at hout
    · rename_i hhor
      rcases creepPastTimerAt_cases c₁ after with hsame | ⟨hmem, hdr, hfl, hho⟩
      · rw [hsame] at hout
        subst hout
        exact .inl (value_driven_le hd hfloor (le_refl _))
      · subst hout
        have hmax : after ≤ u64Max := (Nat.min_le_left _ _).trans (satAdd_le _ _)
        have hreach : c.horizon ≤ creepPast c.horizon := le_satAdd (hhor.ge.trans hmax) 1
        refine .inr ⟨hhor ▸ hmem, value_driven_le (hdr.trans hd) ?_ ?_⟩
        · exact hfl.trans_le (hfloor.trans hreach)
        · exact hho.trans_le (by rw [hhor])
    · subst hout
      exact .inl (value_driven_le hd hfloor (le_refl _))

/-- **Spin steps.** A step that moves a discrete clock stops 1 ns short of the next participant
timer, from there lands just past it, and passes no other; any other step moves no reading. A driven
clock is not moved, and what a charge lets it read lies within its horizon but for the creep past a
timer there. -/
theorem spin_steps_short (c : Clock) (hv : c.heldValue ≤ u64Max) :
    (∀ real real' step, (c.spinStep real real' step).2.1.isMoved = true →
      c.driven = false ∧ Spun c (c.spinStep real real' step).1 step ∧
        ∀ at_, c.NextTimer at_ → (c.spinStep real real' step).1.heldValue = at_ - 1 →
          ∀ real₂ real₂' step₂,
            ((c.spinStep real real' step).1.spinStep real₂ real₂' step₂).2.1.isMoved = true →
            ((c.spinStep real real' step).1.spinStep real₂ real₂' step₂).1.heldValue =
              creepPast at_) ∧
    (∀ real real' step, (c.spinStep real real' step).2.1.isMoved = false →
      ∀ later, (c.spinStep real real' step).1.value later = c.value later) ∧
    (c.driven = true → ∀ real latency later, real ≤ later →
      Within c (c.charge real latency).1 later) := by
  refine ⟨fun real real' step hmoved => ?_, fun real real' step hstay later => ?_,
    fun hd real latency later hlater => charge_within hd real latency hlater⟩
  · rcases spinStep_cases hv (rfl : c.spinStep real real' step = _) with ⟨hno, -⟩ | hland
    · rw [hmoved] at hno; nomatch hno
    obtain ⟨-, hd, hland, -⟩ := hland
    refine ⟨hd, spun_of_landing hv hland, fun at_ hnext hstop real₂ real₂' step₂ hmoved₂ => ?_⟩
    obtain ⟨hnext', hone⟩ := spinStep_again hv hmoved hnext hstop
    have hv' : (c.spinStep real real' step).1.heldValue ≤ u64Max :=
      hland.trans_le (spinLanding_le hv step).2
    rcases spinStep_cases hv' (rfl : (c.spinStep real real' step).1.spinStep real₂ real₂' step₂ = _)
      with ⟨hno, -⟩ | ⟨-, -, hland₂, -⟩
    · rw [hmoved₂] at hno; nomatch hno
    · exact (spun_of_landing hv' hland₂).past at_ hnext' hone
  · rcases spinStep_cases hv (rfl : c.spinStep real real' step = _) with ⟨-, hcore⟩ | ⟨hmoved, -⟩
    · exact value_eq_of_core hcore later
    · rw [hstay] at hmoved; nomatch hmoved

/-- Spinning 1 µs at a time, a clock with a sleeper due at 10 stops at 9 and then passes it. -/
theorem spin_steps_short_sleeper : (sleeper.spinStep 0 0 1000).1.heldValue = 9 ∧
      ((sleeper.spinStep 0 0 1000).1.spinStep 0 0 1000).1.heldValue = 11 :=
  have hstop : (sleeper.spinStep 0 0 1000).1.heldValue = 10 - 1 := by decide +kernel
  have hnext : sleeper.NextTimer 10 := by unfold NextTimer Earliest; decide +kernel
  ⟨hstop, ((spin_steps_short sleeper (by decide +kernel)).1 0 0 1000 (by decide +kernel)).2.2
    10 hnext
    hstop 0 0 1000 (by decide +kernel)⟩

end Clock

end Snare.Time
