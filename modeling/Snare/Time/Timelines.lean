import Snare.Time.Timestamps

/-!
# Clocks of one process on one timeline

`TIMELINES` lists the begun clocks of a process and the highest readings of those dropped. A clock
that continues the timeline starts past all of them, rounded up to a whole `START_GRAIN`. `begin`
holds the list's lock, but the listed clocks go on: it reads them one after another, and each may be
read, charged or jumped between that and the new clock's start.

* **`Covers`**: where a reading that was handed out is accounted for: in the mark gathered so far,
  or at a clock still to be asked, which reads at least that;
* **`Inv`**: every reading is covered, and realtime is the fixed epoch past monotonic time on every
  clock, so that the two marks are one;
* **`restarted_continue`**: so the new clock's first readings are whole and not below any.
-/

namespace Snare.Time

/-- `CLOCK_REALTIME` at monotonic zero on a clock that keeps the fixed epoch. -/
def fixedEpochNanos : Nat := 1700000000 * 1000000000

structure Placed where
  clock : Clock
  /-- `CLOCK_REALTIME` at monotonic zero. -/
  baseRealtimeNanos : Nat := fixedEpochNanos

namespace Placed

def realtimeAt (p : Placed) (monotonic : Nat) : Nat := satAdd p.baseRealtimeNanos monotonic

/-- The highest monotonic and realtime readings handed out so far, an open executive timestamp's
included. -/
def highWater (p : Placed) (real : Nat) : Placed × Nat × Nat :=
  let (clock, v) := p.clock.peek real
  let monotonic := max v clock.stamp
  ({ p with clock }, monotonic, p.realtimeAt monotonic)

/-- Moves a fresh clock's start to the first grain a whole grain past `monotonic`, with realtime
there no earlier than `realtime`. -/
def startAt (p : Placed) (monotonic realtime : Nat) : Placed where
  clock := p.clock.startAt monotonic realtime
  baseRealtimeNanos := max (realtime - monotonic) fixedEpochNanos

end Placed

/-- A `begin` that holds the lock: the new clock's settings, how many of the listed clocks it has
asked, and the highest readings so far. -/
structure Beginning where
  fixed : Bool
  discrete : Bool
  deterministic : Bool
  sampled : Nat := 0
  monotonic : Nat
  realtime : Nat

structure Process where
  /-- The real clock's last sample. -/
  real : Nat
  /-- The next id of `wake_id`. -/
  wakeId : Nat
  live : List Placed := []
  pastMonotonic : Nat := 0
  pastRealtime : Nat := 0
  beginning : Option Beginning := none
  /-- The readings handed out by any clock, monotonic and realtime. Not in the source. -/
  handed : List (Nat × Nat) := []

/-- What a call hands out of the clock: a reading of the code under test, or one without ticking. -/
def Call.reading (c : Clock) (r : Nat → Nat) : Call → Option Nat
  | .guest ⟨.advance, _⟩ => some (c.advance (r 0)).2
  | .guest ⟨.peek, _⟩ => some (c.peek (r 0)).2
  | _ => none

namespace Process

inductive Act where
  /-- A new clock's `begin` takes the lock. -/
  | begin (fixed discrete deterministic : Bool)
  /-- It asks the next listed clock. -/
  | sample (wait : Nat)
  /-- It starts the new clock, lists it and lets go of the lock. -/
  | place
  /-- A call on a listed clock. -/
  | turn (i : Nat) (a : Turn)
  /-- The last handle of a listed clock goes; its drop takes the lock. -/
  | drop (i : Nat) (wait : Nat)

/-- The clock a `begin` starts: fresh, and moved on unless it keeps the fixed epoch. -/
def placed (b : Beginning) : Placed :=
  let fresh : Placed := { clock := { discrete := b.discrete, deterministic := b.deterministic } }
  if b.fixed then fresh else fresh.startAt b.monotonic b.realtime

/-- A `begin` has asked every listed clock it asks. -/
def asked (s : Process) (b : Beginning) : Bool := b.fixed || b.sampled == s.live.length

def step (s : Process) : Act → Process
  | .begin fixed discrete deterministic =>
    match s.beginning with
    | some _ => s
    | none =>
      { s with beginning := some { fixed, discrete, deterministic, monotonic := s.pastMonotonic
                                   realtime := s.pastRealtime } }
  | .sample wait =>
    match s.beginning with
    | none => s
    | some b =>
      if b.fixed then s
      else
        match s.live[b.sampled]? with
        | none => s
        | some p =>
          let (p, monotonic, realtime) := p.highWater (s.real + wait)
          { s with real := s.real + wait
                   live := s.live.set b.sampled p
                   beginning := some { b with sampled := b.sampled + 1
                                              monotonic := max b.monotonic monotonic
                                              realtime := max b.realtime realtime } }
  | .place =>
    match s.beginning with
    | none => s
    | some b =>
      if s.asked b then { s with live := s.live ++ [placed b], beginning := none } else s
  | .turn i a =>
    match s.live[i]? with
    | none => s
    | some p =>
      let r := Time.sample s.real a.waits
      let clock := (p.clock.call r s.wakeId a.call).1
      { s with real := r (a.call.samples - 1)
               wakeId := match a.call with
                 | .guest op => if op.1.takesId p.clock then s.wakeId + 1 else s.wakeId
                 | _ => s.wakeId
               live := s.live.set i { p with clock }
               handed := match a.call.reading p.clock r with
                 | some v => (v, p.realtimeAt v) :: s.handed
                 | none => s.handed }
  | .drop i wait =>
    match s.beginning, s.live[i]? with
    | none, some p =>
      let (_, monotonic, realtime) := p.highWater (s.real + wait)
      { s with real := s.real + wait
               live := s.live.eraseIdx i
               pastMonotonic := max s.pastMonotonic monotonic
               pastRealtime := max s.pastRealtime realtime }
    | _, _ => s

/-! ## Where readings are accounted for -/

/-- A reading is within the mark `m`, or a listed clock from place `k` on reads at least that. -/
def Covers (live : List Placed) (real m k x : Nat) : Prop :=
  x ≤ m ∨ ∃ i p, k ≤ i ∧ live[i]? = some p ∧ x ≤ p.clock.seen real

theorem Covers.mono {live live' : List Placed} {real real' m m' k x : Nat}
    (h : Covers live real m k x) (hm : m ≤ m') (hlive : ∀ i p, k ≤ i → live[i]? = some p →
      ∃ p', live'[i]? = some p' ∧ p.clock.seen real ≤ p'.clock.seen real') :
    Covers live' real' m' k x := by
  rcases h with h | ⟨i, p, hi, hp, hx⟩
  · exact .inl (h.trans hm)
  · obtain ⟨p', hp', hle⟩ := hlive i p hi hp
    exact .inr ⟨i, p', hi, hp', hx.trans hle⟩

theorem Covers.set {live : List Placed} {real real' m k x i : Nat} {p p' : Placed}
    (h : Covers live real m k x) (hp : live[i]? = some p) (hle : real ≤ real')
    (hseen : p.clock.seen real ≤ p'.clock.seen real') : Covers (live.set i p') real' m k x := by
  refine h.mono (le_refl _) fun j q _ hq => ?_
  by_cases hij : i = j
  · subst hij
    obtain rfl : p = q := Option.some.inj (hp.symm.trans hq)
    have hlt := (List.getElem?_eq_some_iff.mp hp).1
    exact ⟨p', by rw [List.getElem?_set_self hlt], hseen⟩
  · exact ⟨q, by rw [List.getElem?_set_ne hij, hq], q.clock.seen_mono hle⟩

theorem Covers.asked {live : List Placed} {real m m' k x : Nat} {p : Placed}
    (h : Covers live real m k x) (hp : live[k]? = some p) (hm : m ≤ m')
    (hseen : p.clock.seen real ≤ m') : Covers live real m' (k + 1) x := by
  rcases h with h | ⟨i, q, hi, hq, hx⟩
  · exact .inl (h.trans hm)
  · by_cases hik : i = k
    · obtain rfl : p = q := Option.some.inj (hp.symm.trans (hik ▸ hq))
      exact .inl (hx.trans hseen)
    · exact .inr ⟨i, q, by omega, hq, hx⟩

/-! ## What asking a clock does -/

variable {p : Placed} {real real' : Nat}

theorem highWater_eq (p : Placed) (real : Nat) : (p.highWater real).2.1 = p.clock.seen real ∧
      (p.highWater real).2.2 = p.realtimeAt (p.clock.seen real) := by
  have hstamp : (p.clock.peek real).1.stamp = p.clock.stamp :=
    Clock.stamp_of_frame (p.clock.peek_frame real)
  have hseen : max (p.clock.peek real).2 (p.clock.peek real).1.stamp = p.clock.seen real := by
    rw [hstamp]
    rfl
  exact ⟨hseen, congrArg p.realtimeAt hseen⟩

theorem highWater_clock (h : p.clock.Bounded) (hle : real ≤ real') :
    (p.highWater real).1.clock.Bounded ∧
      (p.highWater real).1.clock.seen real' = p.clock.seen real' := by
  refine ⟨(h.reread real).bounded, ?_⟩
  have hstamp : (p.clock.peek real).1.stamp = p.clock.stamp :=
    Clock.stamp_of_frame (p.clock.peek_frame real)
  show max ((p.clock.peek real).1.value real') (p.clock.peek real).1.stamp = _
  rw [p.clock.value_peek hle, hstamp]
  rfl

theorem reading_le {c : Clock} (h : c.Bounded) {r : Nat → Nat} (hr : Monotone r) (wakeId : Nat)
    {call : Call} {v : Nat} (hv : call.reading c r = some v) :
    v ≤ (c.call r wakeId call).1.seen (r (call.samples - 1)) := by
  have h01 := hr (show 0 ≤ 1 by decide)
  unfold Call.reading at hv
  split at hv
  · obtain rfl := Option.some.inj hv
    exact (h.advance_between (le_refl _) h01 wakeId).2
  · obtain rfl := Option.some.inj hv
    have hk := h.apply h01 wakeId .peek
    exact (le_max_left _ c.stamp).trans hk.seen_le
  · nomatch hv

/-! ## Where the new clock starts -/

def startOf (monotonic realtime : Nat) : Nat :=
  if monotonic = 0 ∧ realtime = 0 then 0
  else min ((satAdd monotonic startGrain + startGrain - 1) / startGrain * startGrain) u64Max

theorem startOf_spec {monotonic : Nat} (realtime : Nat)
    (hfit : monotonic + 2 * startGrain ≤ u64Max) :
    startOf monotonic realtime % startGrain = 0 ∧ monotonic ≤ startOf monotonic realtime ∧
      startOf monotonic realtime ≤ monotonic + 2 * startGrain := by
  unfold startOf
  split
  · next hzero => exact ⟨rfl, by omega, by omega⟩
  · have hsat : satAdd monotonic startGrain = monotonic + startGrain := by
      simp only [satAdd]
      omega
    rw [hsat]
    generalize hn : (monotonic + startGrain + startGrain - 1) / startGrain = n
    have hlow : n * startGrain ≤ monotonic + startGrain + startGrain - 1 :=
      hn ▸ Nat.div_mul_le_self _ _
    have hpos : 0 < startGrain := by decide
    have hhigh : monotonic + startGrain + startGrain - 1 < n * startGrain + startGrain :=
      hn ▸ Nat.lt_div_mul_add hpos
    rw [Nat.min_eq_left (by omega)]
    exact ⟨Nat.mul_mod_left n startGrain, by omega, by omega⟩

theorem placed_clock {b : Beginning} (hfixed : b.fixed = false) (real : Nat) :
    (placed b).clock.Bounded ∧ (placed b).clock.value real = startOf b.monotonic b.realtime ∧
      (b.discrete = true → ((placed b).clock.advance real).2 = startOf b.monotonic b.realtime) := by
  have hle : startOf b.monotonic b.realtime ≤ u64Max := by
    unfold startOf
    split
    · exact Nat.zero_le _
    · exact Nat.min_le_right _ _
  have hclock : (placed b).clock = {
        discrete := b.discrete
        deterministic := b.deterministic
        origin := startOf b.monotonic b.realtime
        monotonicNanos := startOf b.monotonic b.realtime
        floor := startOf b.monotonic b.realtime } := by
    simp only [placed, hfixed, Placed.startAt, Clock.startAt, startOf, Nat.zero_max]
    rfl
  have hvalue : (placed b).clock.value real = startOf b.monotonic b.realtime := by
    have hl : (placed b).clock.onLine = false := by rw [hclock]; rfl
    rw [Clock.value_of_held hl, hclock, Clock.heldValue, Nat.max_self]
  refine ⟨?_, hvalue, fun hdiscrete => ?_⟩
  · rw [hclock]
    exact Clock.bounded_of_undriven rfl hle hle rfl rfl
  · have hj : (placed b).clock.jumps = false := by rw [hclock]; simp [Clock.jumps, hdiscrete]
    rw [Clock.advance_of_not_jumps hj]
    have hstamp : (placed b).clock.stamp = 0 := by rw [hclock]
    rw [hvalue, hstamp, Nat.max_zero]

/-! ## The invariant -/

structure Inv (s : Process) : Prop where
  live : ∀ p ∈ s.live, p.clock.Bounded ∧ p.baseRealtimeNanos = fixedEpochNanos
  past : s.pastRealtime ≤ fixedEpochNanos + s.pastMonotonic
  realtime : ∀ x ∈ s.handed, x.2 ≤ fixedEpochNanos + x.1
  handed : ∀ x ∈ s.handed, Covers s.live s.real s.pastMonotonic 0 x.1
  beginning : ∀ b, s.beginning = some b → b.fixed = false →
    b.sampled ≤ s.live.length ∧ b.realtime ≤ fixedEpochNanos + b.monotonic ∧
      ∀ x ∈ s.handed, Covers s.live s.real b.monotonic b.sampled x.1

theorem Inv.init (real wakeId : Nat) : Inv { real, wakeId } where
  live := nofun
  past := Nat.zero_le _
  realtime := nofun
  handed := nofun
  beginning := nofun

/-- **The condition on a step**: no clock falls behind its open timestamp, none that a `begin` has
asked already goes on before the new clock has started, and that one is a discrete one, which does
not tick as it is read, and starts with room below the top of the range. -/
def Calm (s : Process) : Act → Prop
  | .turn i a =>
    (∀ p, s.live[i]? = some p → a.call.NotBehind p.clock (Time.sample s.real a.waits)) ∧
      ∀ b, s.beginning = some b → b.fixed = false → b.sampled ≤ i
  | .place => ∀ b, s.beginning = some b → b.fixed = false → b.discrete = true ∧
    fixedEpochNanos + b.monotonic + 2 * startGrain ≤ u64Max
  | _ => True

theorem realtimeAt_le (hbase : p.baseRealtimeNanos = fixedEpochNanos) (m : Nat) :
    p.realtimeAt m ≤ fixedEpochNanos + m := by
  rw [Placed.realtimeAt, hbase]
  exact Nat.min_le_left _ _

variable {s : Process}

theorem Inv.begin (h : s.Inv) (fixed discrete deterministic : Bool) :
    (s.step (.begin fixed discrete deterministic)).Inv := by
  simp only [step]
  split
  · exact h
  · refine { h with beginning := fun b hb _ => ?_ }
    obtain rfl := Option.some.inj hb
    exact ⟨Nat.zero_le _, h.past, h.handed⟩

theorem Inv.sample (h : s.Inv) (wait : Nat) : (s.step (.sample wait)).Inv := by
  simp only [step]
  split
  · exact h
  · rename_i b hb
    split
    · exact h
    · rename_i hfixed
      have hfixed : b.fixed = false := by simpa using hfixed
      split
      · exact h
      · rename_i p hp
        have hle : s.real ≤ s.real + wait := Nat.le_add_right _ _
        obtain ⟨hbounded, hbase⟩ := h.live p (List.mem_of_getElem? hp)
        obtain ⟨hm, hr⟩ := highWater_eq p (s.real + wait)
        obtain ⟨hbounded', hseen⟩ := highWater_clock hbounded (le_refl (s.real + wait))
        have hnow : p.clock.seen s.real ≤ p.clock.seen (s.real + wait) := p.clock.seen_mono hle
        have hkept : p.clock.seen s.real ≤
            (p.highWater (s.real + wait)).1.clock.seen (s.real + wait) :=
          hseen ▸ hnow
        have hlt := (List.getElem?_eq_some_iff.mp hp).1
        obtain ⟨-, hreal, hcovers⟩ := h.beginning b hb hfixed
        refine ⟨?_, h.past, h.realtime, fun x hx => (h.handed x hx).set hp hle hkept, ?_⟩
        · intro q hq
          rcases List.mem_or_eq_of_mem_set hq with hq | rfl
          · exact h.live q hq
          · exact ⟨hbounded', hbase⟩
        · intro b' hb' _
          obtain rfl := Option.some.inj hb'
          refine ⟨?_, ?_, fun x hx => ?_⟩
          · rw [List.length_set]
            exact hlt
          · have hrealtime := realtimeAt_le hbase (p.clock.seen (s.real + wait))
            show max b.realtime _ ≤ fixedEpochNanos + max b.monotonic _
            rw [hm, hr]
            omega
          · refine ((hcovers x hx).set hp hle hkept).asked (List.getElem?_set_self hlt)
              (Nat.le_max_left _ _) ?_
            rw [hseen, hm]
            exact Nat.le_max_right _ _

theorem Inv.turn (h : s.Inv) (i : Nat) (a : Turn) (hcalm : s.Calm (.turn i a)) :
    (s.step (.turn i a)).Inv := by
  simp only [step]
  split
  · exact h
  · rename_i p hp
    obtain ⟨hbounded, hbase⟩ := h.live p (List.mem_of_getElem? hp)
    have hr := sample_mono s.real a.waits
    have hle : s.real ≤ Time.sample s.real a.waits (a.call.samples - 1) := le_sample _ _ _
    obtain ⟨hbounded', hseen⟩ :=
      seen_le_iff hbounded hr (le_sample s.real a.waits 0) s.wakeId a.call
    have hkept := hseen.mpr (hcalm.1 p hp)
    have hlt := (List.getElem?_eq_some_iff.mp hp).1
    -- a reading is covered by the clock it was taken of
    have hnew : ∀ {m k : Nat} {v : Nat}, k ≤ i →
        a.call.reading p.clock (Time.sample s.real a.waits) = some v →
        Covers (s.live.set i { p with clock :=
          (p.clock.call (Time.sample s.real a.waits) s.wakeId a.call).1 })
          (Time.sample s.real a.waits (a.call.samples - 1)) m k v := by
      intro m k v hk hv
      exact .inr ⟨i, _, hk, List.getElem?_set_self hlt, reading_le hbounded hr s.wakeId hv⟩
    have hcases : ∀ x, x ∈ (match a.call.reading p.clock (Time.sample s.real a.waits) with
        | some v => (v, p.realtimeAt v) :: s.handed
        | none => s.handed) → x ∈ s.handed ∨
          a.call.reading p.clock (Time.sample s.real a.waits) = some x.1 ∧
            x.2 = p.realtimeAt x.1 := by
      intro x hx
      split at hx
      · rename_i v hv
        rcases List.mem_cons.mp hx with rfl | hx
        · exact .inr ⟨hv, rfl⟩
        · exact .inl hx
      · exact .inl hx
    refine ⟨?_, h.past, fun x hx => ?_, fun x hx => ?_, fun b hb hfixed => ?_⟩
    · intro q hq
      rcases List.mem_or_eq_of_mem_set hq with hq | rfl
      · exact h.live q hq
      · exact ⟨hbounded', hbase⟩
    · rcases hcases x hx with hx | ⟨-, hreal⟩
      · exact h.realtime x hx
      · exact hreal ▸ realtimeAt_le hbase x.1
    · rcases hcases x hx with hx | ⟨hv, -⟩
      · exact (h.handed x hx).set hp hle hkept
      · exact hnew (Nat.zero_le i) hv
    · obtain ⟨hsampled, hreal, hcovers⟩ := h.beginning b hb hfixed
      refine ⟨by rw [List.length_set]; exact hsampled, hreal, fun x hx => ?_⟩
      rcases hcases x hx with hx | ⟨hv, -⟩
      · exact (hcovers x hx).set hp hle hkept
      · exact hnew (hcalm.2 b hb hfixed) hv

theorem placed_base {b : Beginning}
    (h : b.fixed = false → b.realtime ≤ fixedEpochNanos + b.monotonic) :
    (placed b).baseRealtimeNanos = fixedEpochNanos := by
  cases hfixed : b.fixed with
  | true => simp only [placed, hfixed, if_true]
  | false =>
    have := h hfixed
    simp only [placed, hfixed, Placed.startAt]
    show max (b.realtime - b.monotonic) fixedEpochNanos = fixedEpochNanos
    omega

theorem placed_bounded (b : Beginning) : (placed b).clock.Bounded := by
  cases hfixed : b.fixed with
  | true =>
    simp only [placed, hfixed, if_true]
    exact Clock.bounded_of_undriven rfl (Nat.zero_le _) (Nat.zero_le _) rfl rfl
  | false => exact (placed_clock hfixed 0).1

theorem Inv.place (h : s.Inv) : (s.step .place).Inv := by
  simp only [step]
  split
  · exact h
  · rename_i b hb
    split
    · refine ⟨fun p hp => ?_, h.past, h.realtime, fun x hx => ?_, nofun⟩
      · rcases List.mem_append.mp hp with hp | hp
        · exact h.live p hp
        · obtain rfl := List.mem_singleton.mp hp
          exact ⟨placed_bounded b, placed_base fun hfixed => (h.beginning b hb hfixed).2.1⟩
      · refine (h.handed x hx).mono (le_refl _) fun i p _ hp => ⟨p, ?_, le_refl _⟩
        rw [List.getElem?_append_left (List.getElem?_eq_some_iff.mp hp).1, hp]
    · exact h

theorem Inv.drop (h : s.Inv) (i wait : Nat) : (s.step (.drop i wait)).Inv := by
  simp only [step]
  split
  · rename_i p hbeginning hp
    have hle : s.real ≤ s.real + wait := Nat.le_add_right _ _
    obtain ⟨hbounded, hbase⟩ := h.live p (List.mem_of_getElem? hp)
    obtain ⟨hm, hr⟩ := highWater_eq p (s.real + wait)
    refine ⟨fun q hq => h.live q (List.mem_of_mem_eraseIdx hq), ?_, h.realtime, fun x hx => ?_,
      fun b hb => by rw [hbeginning] at hb; nomatch hb⟩
    · have hrealtime := realtimeAt_le hbase (p.clock.seen (s.real + wait))
      have hpast := h.past
      show max s.pastRealtime _ ≤ fixedEpochNanos + max s.pastMonotonic _
      rw [hm, hr]
      omega
    · rw [hm]
      rcases h.handed x hx with hx | ⟨j, q, -, hq, hx⟩
      · exact .inl (hx.trans (Nat.le_max_left _ _))
      · have hseen := hx.trans (q.clock.seen_mono hle)
        rcases Nat.lt_trichotomy j i with hji | hji | hji
        · exact .inr ⟨j, q, Nat.zero_le _, by rw [List.getElem?_eraseIdx_of_lt hji, hq], hseen⟩
        · obtain rfl : p = q := Option.some.inj (hp.symm.trans (hji ▸ hq))
          exact .inl (hseen.trans (Nat.le_max_right _ _))
        · refine .inr ⟨j - 1, q, Nat.zero_le _, ?_, hseen⟩
          rw [List.getElem?_eraseIdx_of_ge (by omega), show j - 1 + 1 = j by omega, hq]
  · exact h

theorem Inv.step (h : s.Inv) {a : Act} (hcalm : s.Calm a) : (s.step a).Inv := by
  cases a with
  | begin fixed discrete deterministic => exact h.begin fixed discrete deterministic
  | sample wait => exact h.sample wait
  | place => exact h.place
  | turn i a => exact h.turn i a hcalm
  | drop i wait => exact h.drop i wait

/-! ## Restarted clocks -/

/-- The clock `p` continues the timeline of `s`: whatever call on it hands out its first reading,
that and the realtime there are whole grains, and not below any handed out. -/
def Continues (s : Process) (p : Placed) : Prop :=
  ∀ (r : Nat → Nat) (call : Call) (v : Nat), call.reading p.clock r = some v →
    v % startGrain = 0 ∧ p.realtimeAt v % startGrain = 0 ∧
      ∀ x ∈ s.handed, x.1 ≤ v ∧ x.2 ≤ p.realtimeAt v

def PlacesOn (s : Process) (a : Act) : Prop :=
  a = .place → ∀ b, s.beginning = some b → b.fixed = false → s.asked b = true →
    (s.step a).live = s.live ++ [placed b] ∧ s.Continues (placed b)

theorem placed_reading {b : Beginning} (hfixed : b.fixed = false) (hdiscrete : b.discrete = true)
    {r : Nat → Nat} {call : Call} {v : Nat} (hv : call.reading (placed b).clock r = some v) :
    v = startOf b.monotonic b.realtime := by
  obtain ⟨-, hvalue, hadvance⟩ := placed_clock hfixed (r 0)
  unfold Call.reading at hv
  split at hv
  · exact (Option.some.inj hv).symm.trans (hadvance hdiscrete)
  · exact (Option.some.inj hv).symm.trans hvalue
  · nomatch hv

theorem Inv.placesOn (h : s.Inv) {a : Act} (hcalm : s.Calm a) : s.PlacesOn a := by
  rintro rfl b hb hfixed hasked
  obtain ⟨hdiscrete, hfit⟩ := hcalm b hb hfixed
  obtain ⟨-, hreal, hcovers⟩ := h.beginning b hb hfixed
  have hsampled : b.sampled = s.live.length := by simpa [asked, hfixed] using hasked
  refine ⟨by simp only [Process.step, hb, hasked, if_true], fun r call v hv => ?_⟩
  obtain rfl := placed_reading hfixed hdiscrete hv
  obtain ⟨hwhole, hpast, hnear⟩ := startOf_spec b.realtime
    (show b.monotonic + 2 * startGrain ≤ u64Max by omega)
  have hbase := placed_base (b := b) fun _ => hreal
  have hrealtime : (placed b).realtimeAt (startOf b.monotonic b.realtime) =
      fixedEpochNanos + startOf b.monotonic b.realtime := by
    rw [Placed.realtimeAt, hbase, satAdd]
    omega
  rw [hrealtime]
  refine ⟨hwhole, ?_, fun x hx => ?_⟩
  · rw [Nat.add_mod, hwhole]
    decide
  · -- every listed clock has been asked, so the mark covers the reading
    have hmark : x.1 ≤ b.monotonic := by
      rcases hcovers x hx with hle | ⟨i, p, hi, hp, -⟩
      · exact hle
      · have := (List.getElem?_eq_some_iff.mp hp).1
        omega
    have := h.realtime x hx
    omega

/-- **Restarted clocks continue.** In every run whose steps are calm, every clock that continues the
timeline hands out a first reading on whole grains and past every reading handed out before, by the
clocks that are gone and by those still live. -/
theorem restarted_continue (real wakeId : Nat) (as : List Act)
    (h : Runs.Along step Calm { real, wakeId } as) :
    Runs.Along step PlacesOn { real, wakeId } as :=
  Runs.along_of_along (fun _ _ hi hc => Inv.step hi hc) (fun _ _ hi hc => hi.placesOn hc)
    (Inv.init real wakeId) h

instance Calm.decidable (s : Process) : DecidablePred s.Calm
  | .turn .. => inferInstanceAs (Decidable (_ ∧ _))
  | .place => inferInstanceAs (Decidable (∀ _ ∈ s.beginning, _))
  | .begin .. | .sample _ | .drop .. => .isTrue trivial

def read : Turn := { call := .guest ⟨.advance, rfl⟩ }

def moveOn (d : UInt64) : Turn := { call := .guest ⟨.advanceBy d, rfl⟩ }

/-- The first clock of the process is moved on by `d` and read, and a second one, discrete or as
fast as possible, has asked it. -/
def oneThenAnother (d : UInt64) (discrete : Bool) : List Act :=
  [.begin false true false, .place, .turn 0 (moveOn d), .turn 0 read, .begin false discrete false,
    .sample 0]

/-- A second clock starts after a first that read 5. -/
theorem restarted_continue_second :
    Runs.Along step PlacesOn { real := 0, wakeId := 0 } (oneThenAnother 5 true ++ [.place]) :=
  restarted_continue 0 0 _ (by decide +kernel)

def next (s : Process) : Option Clock := s.beginning.map fun b => (placed b).clock

/-- Three starts that do not continue: after a first clock at the top of the range, the second
starts there, on no whole grain; while a second is about to start on the first grain, the first,
already asked, is moved on and hands out 10 s; and an as-fast-as-possible clock ticks before its
first reading, which is no whole grain. -/
theorem restarted_behind :
    let run (as : List Act) : Process := as.foldl step { real := 0, wakeId := 0 }
    ((run (oneThenAnother 18446744073709551615 true)).next.map fun c => c.value 0) = some u64Max ∧
      u64Max % startGrain ≠ 0 ∧
    (let race := run (oneThenAnother 0 true ++ [.turn 0 (moveOn 10000000000), .turn 0 read])
     (10000000000, fixedEpochNanos + 10000000000) ∈ race.handed ∧
       (race.next.map fun c => c.value 0) = some startGrain) ∧
    (run (oneThenAnother 5 false ++ [.place, .turn 1 read])).handed.map Prod.fst =
      [2000001000, 5] := by
  decide +kernel

end Process

end Snare.Time
