import Snare.Time.Stamp

/-!
# Sessions with timestamps

The runs of `Session`: executive calls, and what everyone else does to the clock, in any order and
with any real time between the samples. `timestamps_sound` says when the two promises of a timestamp
hold along a run; `timestamps_broken` has a run against each of them.

* **Readings never decrease** exactly along the runs whose entries and leavings do not fall behind
  the open stamp (`Call.NotBehind`).
* **The clock stays below** a timestamp it was below on entry, and withholds what is due there,
  along the runs that keep the horizon below it (`Call.Within`).
-/

namespace Snare.Time

open Clock
open Clock (call)

theorem sample_mono (real : Nat) (waits : List Nat) : Monotone (sample real waits) := by
  intro i j hij
  have htake : (waits.take (i + 1)).Sublist (waits.take (j + 1)) :=
    (List.take_prefix_take_left (by omega)).sublist
  exact Nat.add_le_add_left (htake.sum_le_sum fun _ _ => Nat.zero_le _) real

theorem le_sample (real : Nat) (waits : List Nat) (i : Nat) : real ≤ sample real waits i :=
  Nat.le_add_right _ _

/-! ## What a call does to the tables -/

section Tables

variable {c : Clock} {r : Nat → Nat}

theorem moves_releasePassed {t : Timers × Timers} (h : Exact t) {real before after : Nat}
    (heq : c.tables = t) : Moves t (Executive.releasePassed c real before after).1.tables
      (Executive.releasePassed c real before after).2 := by
  refine h.after heq fun h => ?_
  unfold Executive.releasePassed
  simp only
  split
  · refine h.after (peek_tables c real) fun h => ?_
    split
    · exact h.fireUpto before after
    · exact .refl h
  · exact h.fireUpto before after

theorem moves_attachTo (h : Exact c.tables) :
    Moves c.tables (Executive.attachTo c r).1.tables (Executive.attachTo c r).2 := by
  have htables : (c.attachDriven (r 0) (r 1)).tables = c.tables := peek_tables c (r 0)
  refine h.after htables fun h => ?_
  exact h.after (peek_tables _ (r 2)) fun h => h.fireUpto _ _

theorem moves_grant (h : Exact c.tables) (anchorV anchorReal rateQ32 horizon : Nat) :
    Moves c.tables (Executive.grant c r anchorV anchorReal rateQ32 horizon).1.tables
      (Executive.grant c r anchorV anchorReal rateQ32 horizon).2 := by
  unfold Executive.grant
  dsimp only
  refine moves_releasePassed h ?_
  rw [peek_tables, grant_tables, peek_tables]

theorem timerBlocker_tables (c : Clock) (real real' : Nat) (before : Option Nat) :
    (Executive.timerBlocker c real real' before).1.tables = c.tables := by
  unfold Executive.timerBlocker
  simp only
  split
  · exact peek_tables c real
  · split
    · exact peek_tables c real
    · exact (peek_tables _ real').trans (peek_tables c real)

theorem enterTimestamp_tables (c : Clock) (real real' t : Nat) :
    (Executive.enterTimestamp c real real' t).tables = c.tables :=
  jumpDriven_tables c real real' (c.atSimTime t - 1) false false

theorem enterTimestampChecked_tables (c : Clock) (r : Nat → Nat) (t : Nat) (quiescent : Bool) :
    (Executive.enterTimestampChecked c r t quiescent).1.tables = c.tables := by
  have hblocker := timerBlocker_tables c (r 0) (r 1) (some (c.atSimTime t))
  unfold Executive.enterTimestampChecked
  split
  · rfl
  · simp only
    split
    · exact hblocker
    · exact (enterTimestamp_tables _ (r 2) (r 3) t).trans hblocker

theorem moves_jumpTo (h : Exact c.tables) (t : Nat) (quiescent : Bool) :
    Moves c.tables (Executive.jumpTo c r t quiescent).1.tables
      (Executive.jumpTo c r t quiescent).2 := by
  unfold Executive.jumpTo
  split
  · exact .refl h
  · refine h.after (timerBlocker_tables c (r 0) (r 0) none) fun h => ?_
    simp only
    split
    · exact .refl h
    · exact h.fireUpto_after (jumpDriven_tables _ (r 1) (r 2) _ true true)

theorem exact_call (h : Exact c.tables) {wakeId : Nat}
    (hun : ∀ id, wakeId ≤ id → Unknown c.tables id) (call : Call) :
    Exact (c.call r wakeId call).1.tables ∧ ∀ id,
      (match call with
        | .guest op => if op.1.takesId c then wakeId + 1 else wakeId
        | _ => wakeId) ≤ id → Unknown (c.call r wakeId call).1.tables id := by
  -- a call of the executive registers nothing
  have hmoves : ∀ {t' : Timers × Timers} {handed : List Nat}, Moves c.tables t' handed →
      Exact t' ∧ ∀ id, wakeId ≤ id → Unknown t' id :=
    fun hm => ⟨hm.exact_, fun id hid => hm.fresh id (hun id hid)⟩
  have hsame : ∀ {t' : Timers × Timers}, t' = c.tables → Exact t' ∧ ∀ id,
      wakeId ≤ id → Unknown t' id :=
    fun heq => heq ▸ ⟨h, hun⟩
  cases call with
  | attach =>
    simp only [call]
    split
    · exact hsame rfl
    · exact hmoves (moves_attachTo h)
  | grant anchorV anchorReal rateQ32 horizon =>
    simp only [call]
    split
    · exact hsame rfl
    · exact hmoves (moves_grant h _ _ _ _)
  | freeze =>
    refine hsame ?_
    simp only [call, Clock.freeze]
    split
    · rfl
    · exact peek_tables c (r 0)
  | jumpTo t quiescent =>
    simp only [call]
    split
    · exact hsame rfl
    · exact hmoves (moves_jumpTo h t.toNat quiescent)
  | enterTimestamp t =>
    simp only [call]
    split
    · exact hsame rfl
    · exact hsame (enterTimestamp_tables c (r 0) (r 1) t.toNat)
  | enterTimestampChecked t quiescent =>
    simp only [call]
    split
    · exact hsame rfl
    · exact hsame (enterTimestampChecked_tables c r t.toNat quiescent)
  | leaveTimestamp t =>
    simp only [call]
    split
    · exact hsame rfl
    · exact hmoves (h.fireUpto_after (jumpDriven_tables c (r 0) (r 1) _ false true))
  | drop =>
    refine hsame ?_
    simp only [call, Clock.detachDriven]
    split
    · rfl
    · exact peek_tables c (r 0)
  | flow => exact hmoves (h.after (peek_tables c (r 0)) fun h => h.fireUpto _ _)
  | guest op =>
    have hs := h.apply (hun wakeId le_rfl) (r 0) (r 1) op.1
    exact ⟨hs.exact_, hs.unknown hun⟩

end Tables

/-! ## Sessions -/

/-- The clock is well formed, its tables are exact and the ids to come are new. -/
structure Session.Good (s : Session) : Prop where
  bounded : s.clock.Bounded
  exact_ : Exact s.clock.tables
  unknown : ∀ id, s.wakeId ≤ id → Unknown s.clock.tables id

variable {s : Session}

theorem Session.Good.step (h : s.Good) (a : Turn) : (s.step a).Good := by
  obtain ⟨hexact, hunknown⟩ := exact_call (r := s.at_ a) h.exact_ h.unknown a.call
  exact ⟨(seen_le_iff h.bounded (sample_mono s.real a.waits) (le_sample s.real a.waits 0) s.wakeId
    a.call).1, hexact, hunknown⟩

theorem Session.good_begin (discrete deterministic : Bool) (monotonic realtime : UInt64)
    (real wakeId : Nat) :
    (Session.begin discrete deterministic monotonic realtime real wakeId).Good :=
  ⟨(World.plain_begin discrete deterministic monotonic realtime real wakeId).1,
    ⟨Timers.exact_default, Timers.exact_default⟩,
    fun id _ => ⟨SortedMap.get?_empty id, SortedMap.get?_empty id⟩⟩

def Session.seen (s : Session) : Nat := s.clock.seen s.real

def Session.NotBehind (s : Session) (a : Turn) : Prop := a.call.NotBehind s.clock (s.at_ a)

theorem Session.Good.seen_le_iff (h : s.Good) (a : Turn) :
    s.seen ≤ (s.step a).seen ↔ s.NotBehind a :=
  (Time.seen_le_iff h.bounded (sample_mono s.real a.waits) (le_sample s.real a.waits 0) s.wakeId
    a.call).2

def Session.reading (s : Session) (a : Turn) : Option Nat :=
  match a.call with
  | .guest ⟨.advance, _⟩ => some (s.clock.advance (s.at_ a 0)).2
  | _ => none

def Session.readings : Session → List Turn → List Nat := Runs.outputs Session.step Session.reading

variable {c : Clock} {real t : Nat}

theorem Clock.Bounded.advance_between (h : c.Bounded) {r₀ r₁ : Nat} (hle : real ≤ r₀)
    (h01 : r₀ ≤ r₁) (wakeId : Nat) :
    c.seen real ≤ (c.advance r₀).2 ∧ (c.advance r₀).2 ≤ (c.advance r₀).1.seen r₁ := by
  have hk := h.apply h01 wakeId .advance
  cases hj : c.jumps with
  | false =>
    rw [advance_of_not_jumps hj]
    exact ⟨c.seen_mono hle, hk.seen_le⟩
  | true =>
    -- a ticking clock is not driven, so no timestamp is open
    have hstamp := (h.undriven (base_of_jumps hj).1).2
    have hbetween := h.reading_between hstamp h01
      (show (c.apply r₀ r₁ wakeId .advance).2.reading = some _ from rfl)
    refine ⟨?_, hbetween.2.trans (le_max_left _ _)⟩
    rw [Clock.seen, hstamp, Nat.max_zero]
    exact (c.value_mono hle).trans hbetween.1

variable {a : Turn}

theorem Session.Good.reading_between (h : s.Good) {v : Nat}
    (hv : s.reading a = some v) : s.seen ≤ v ∧ v ≤ (s.step a).seen := by
  obtain ⟨call, waits⟩ := a
  unfold Session.reading at hv
  split at hv
  case h_2 => cases hv
  case h_1 hop hcall =>
    obtain rfl : call = .guest ⟨.advance, hop⟩ := hcall
    obtain rfl := Option.some.inj hv
    exact h.bounded.advance_between (le_sample s.real waits 0)
      (sample_mono s.real waits (show 0 ≤ 1 by decide)) s.wakeId

theorem Session.Good.readings_pairwise (h : s.Good) {as : List Turn}
    (has : Runs.Along Session.step Session.NotBehind s as) : (s.readings as).Pairwise (· ≤ ·) :=
  (Runs.outputs_pairwise (I := Session.Good) (fun _ a h _ => h.step a)
    (fun _ a h hC => (h.seen_le_iff a).mpr hC) (fun _ _ _ h _ => h.reading_between) h has).1

/-! ## Below an open timestamp -/

/-- The call keeps the horizon below a timestamp the clock is below: as the timestamp is entered,
and while it is open by grants that end below it and jumps that leave room to creep. -/
def Call.Within (c : Clock) (r : Nat → Nat) (below : Bool) : Call → Prop
  | .enterTimestamp t =>
    (c.peek (r 0)).2 < c.atSimTime t.toNat → c.horizon < c.atSimTime t.toNat
  | .enterTimestampChecked t quiescent =>
    quiescent = true →
      (Executive.timerBlocker c (r 0) (r 1) (some (c.atSimTime t.toNat))).2 = false →
        (c.peek (r 2)).2 < c.atSimTime t.toNat → c.horizon < c.atSimTime t.toNat
  | .grant anchorV _ _ horizon =>
    below = true → c.atSimTime anchorV.toNat < c.stamp ∧ c.atSimTime horizon.toNat < c.stamp
  | .jumpTo t quiescent =>
    below = true → quiescent = true → creepPast (max (c.peek (r 1)).2
      (c.landing (c.peek (r 1)).2 (c.atSimTime t.toNat) true)) < c.stamp
  | _ => True

def Session.Within (s : Session) (a : Turn) : Prop := a.call.Within s.clock (s.at_ a) s.below

def Call.edits : Call → Bool
  | .guest op => op.1.edits
  | _ => false

def Call.leaves : Call → Bool
  | .leaveTimestamp _ => true
  | _ => false

/-- Until it is left, an open timestamp the clock was below withholds what is due at it or later: no
waker is handed out by a turn that registers or drops timers, and no other turn touches the timers
there. -/
def Session.Withholds (s : Session) (a : Turn) : Prop :=
  s.below = true → a.call.leaves = false →
    if a.call.edits then s.handed a = [] else Spares s.clock.stamp s.clock (s.step a).clock

/-- The horizon lies below an open timestamp the clock was below. -/
def Session.Low (s : Session) : Prop := s.below = true → s.clock.Under

theorem spares_of_tables {c' : Clock} (h : c'.tables = c.tables) : Spares t c c' := by
  simp only [tables, Prod.mk.injEq] at h
  intro at_ _
  rw [h.1, h.2]
  exact ⟨rfl, rfl⟩

theorem under_enterTimestamp (hd : c.driven = true) {real' : Nat}
    (hbelow : c.value real < c.atSimTime t) (hhor : c.horizon < c.atSimTime t) :
    (Executive.enterTimestamp c real real' t).Under := by
  have hframe : (Executive.enterTimestamp c real real' t).frame =
      (true, max c.horizon (max (c.value real) (c.atSimTime t - 1)), c.atSimTime t) := by
    have hjump : (c.jumpDriven real real' (c.atSimTime t - 1) false false).1.frame = _ :=
      jumpDriven_frame hd _ false false
    rw [jumpDriven_landing hd, landing_false] at hjump
    simp only [frame, Prod.mk.injEq, Bool.false_eq_true, if_false] at hjump
    simp only [Executive.enterTimestamp, setStamp, frame, hjump, Option.getD_some]
  simp only [frame, Prod.mk.injEq] at hframe
  refine ⟨hframe.1, ?_⟩
  rw [hframe.2.1, hframe.2.2]
  omega

theorem low_of_confined
    (henters : a.call.entersBelow s.clock (s.at_ a) = none) (hedits : a.call.edits = false)
    (hconf : s.below = true → Confined s.clock (s.step a).clock) :
    (s.step a).Low ∧ s.Withholds a := by
  have hbelow : (s.step a).below = s.below := by simp only [Session.step, henters, Option.getD_none]
  constructor
  · exact fun hb => (hconf (hbelow ▸ hb)).under
  · intro hb _
    rw [hedits]
    exact (hconf hb).spares

theorem low_of_undriven (hl : s.Low) (hd : s.clock.driven = false)
    (henters : a.call.entersBelow s.clock (s.at_ a) = none) : (s.step a).Low ∧ s.Withholds a := by
  have hbelow : (s.step a).below = s.below := by simp only [Session.step, henters, Option.getD_none]
  have hnot : s.below ≠ true := fun hb => by simp [(hl hb).1] at hd
  exact ⟨fun hb => absurd (hbelow ▸ hb) hnot, fun hb => absurd hb hnot⟩

theorem low_of_enter {c₁ : Clock} {real' : Nat}
    (hd : c₁.driven = true) (htables : c₁.tables = s.clock.tables)
    (hclock : (s.step a).clock = Executive.enterTimestamp c₁ real real' t)
    (hbelow : (s.step a).below = true → c₁.value real < c₁.atSimTime t ∧
      c₁.horizon < c₁.atSimTime t)
    (hedits : a.call.edits = false) : (s.step a).Low ∧ s.Withholds a := by
  constructor
  · intro hb
    rw [hclock]
    exact under_enterTimestamp hd (hbelow hb).1 (hbelow hb).2
  · intro _ _
    rw [hedits, hclock]
    exact spares_of_tables ((enterTimestamp_tables c₁ real real' t).trans htables)

theorem Session.Good.low_step (h : s.Good) (hl : s.Low) (hw : s.Within a) :
    (s.step a).Low ∧ s.Withholds a := by
  obtain ⟨call, waits⟩ := a
  have hr := sample_mono s.real waits
  have hb := h.bounded
  have hex := h.exact_
  cases call with
  | attach =>
    refine low_of_confined rfl rfl fun hbel => ?_
    simp only [Session.step, call, (hl hbel).1, if_true]
    exact (hl hbel).same rfl rfl
  | grant anchorV anchorReal rateQ32 horizon =>
    refine low_of_confined rfl rfl fun hbel => ?_
    obtain ⟨hanchor, hhor⟩ := hw hbel
    simp only [Session.step, call, (hl hbel).1, Bool.not_true, Bool.false_eq_true, if_false]
    exact Executive.confined_grant (hl hbel) hb hex hr hanchor hhor _ _
  | freeze => exact low_of_confined rfl rfl fun hbel => (hl hbel).freeze hb
  | jumpTo t quiescent =>
    refine low_of_confined rfl rfl fun hbel => ?_
    simp only [Session.step, call, (hl hbel).1, Bool.not_true, Bool.false_eq_true, if_false]
    exact Executive.confined_jumpTo (hl hbel) hb hex hr t.toNat quiescent (hw hbel)
  | enterTimestamp t =>
    cases hd : s.clock.driven with
    | false => exact low_of_undriven hl hd (by simp [Call.entersBelow, hd])
    | true =>
      refine low_of_enter hd rfl (by simp only [Session.step, call, hd]; rfl) (fun hbel => ?_) rfl
      simp only [Session.step, Call.entersBelow, hd, if_true, Option.getD_some,
        decide_eq_true_eq] at hbel
      exact ⟨hbel, hw hbel⟩
  | enterTimestampChecked t quiescent =>
    cases hd : s.clock.driven with
    | false => exact low_of_undriven hl hd (by simp [Call.entersBelow, hd])
    | true =>
      obtain ⟨c₁, hread, hcases⟩ := Executive.enterTimestampChecked_cases hb hr t.toNat quiescent
      split at hcases
      case isFalse =>
        -- refused: only reads were made
        refine low_of_confined ?_ rfl fun hbel => ?_
        · simp [Call.entersBelow, hd, Session.at_, hcases]
        · have hclock : (s.step ⟨.enterTimestampChecked t quiescent, waits⟩).clock = c₁ := by
            simp [Session.step, call, hd, Session.at_, hcases]
          rw [hclock]
          exact hread.confined (hl hbel)
      case isTrue henters =>
        have hframe := hread.frame
        simp only [frame, Prod.mk.injEq] at hframe
        have hvalue := hread.value _ (hr (show 1 ≤ 2 by decide))
        have hclock : (s.step ⟨.enterTimestampChecked t quiescent, waits⟩).clock =
            Executive.enterTimestamp c₁ (sample s.real waits 2)
              (sample s.real waits 3) t.toNat := by
          simp [Session.step, call, hd, Session.at_, hcases]
        refine low_of_enter (hframe.1.trans hd) hread.tables hclock (fun hbel => ?_) rfl
        have hlt : (s.clock.peek (sample s.real waits 2)).2 < s.clock.atSimTime t.toNat := by
          simp only [Session.step, Call.entersBelow, hd, Session.at_, hcases,
            Bool.and_true, if_true,
            Option.getD_some] at hbel
          exact of_decide_eq_true hbel
        rw [hvalue, hread.atSimTime, hframe.2.1]
        exact ⟨hlt, hw henters.1 henters.2 hlt⟩
  | leaveTimestamp t =>
    cases hd : s.clock.driven with
    | false => exact low_of_undriven hl hd (by simp [Call.entersBelow, hd])
    | true =>
      refine ⟨fun hbel => ?_, fun _ hleaves => absurd hleaves (by simp [Call.leaves])⟩
      simp [Session.step, Call.entersBelow, hd] at hbel
  | drop =>
    cases hd : s.clock.driven with
    | false => exact low_of_undriven hl hd (by simp [Call.entersBelow, hd])
    | true =>
      refine ⟨fun hbel => ?_, fun _ _ => spares_of_tables ?_⟩
      · simp [Session.step, Call.entersBelow, hd] at hbel
      · simp only [Session.step, call, Clock.detachDriven, hd, Bool.not_true,
          Bool.false_eq_true, if_false]
        exact peek_tables s.clock _
  | flow =>
    refine low_of_confined rfl rfl fun hbel => ?_
    have hread := hb.reread (sample s.real waits 0)
    have hconf := hread.confined (hl hbel)
    exact hconf.trans (hconf.under.fireUpto (hread.tables.symm ▸ hex) _
      (hconf.stamp.symm ▸ (hl hbel).value_lt hb _))
  | guest op =>
    have hguest := fun hbel =>
      (hl hbel).guest hb hex (sample s.real waits 0) (sample s.real waits 1) s.wakeId op.2
    exact ⟨fun hbel => (hguest hbel).1, fun hbel _ => (hguest hbel).2.2⟩

/-- **Timestamps.** Along runs without turns that fall behind the open stamp, readings never
decrease. Along runs that keep the horizon below a timestamp the clock is below, the clock stays
below it while it is open, and nothing due at it or later is delivered before it is left. -/
theorem timestamps_sound (discrete deterministic : Bool) (monotonic realtime : UInt64)
    (real wakeId : Nat) (as : List Turn) :
    let s := Session.begin discrete deterministic monotonic realtime real wakeId
    (Runs.Along Session.step (fun s a => s.seen ≤ (s.step a).seen) s as ↔
        Runs.Along Session.step Session.NotBehind s as) ∧
      (Runs.Along Session.step Session.NotBehind s as → (s.readings as).Pairwise (· ≤ ·)) ∧
      (Runs.Along Session.step Session.Within s as → Runs.Always Session.step
            (fun s => s.below = true → ∀ real, (s.clock.peek real).2 < s.clock.stamp) s as ∧
          Runs.Along Session.step Session.Withholds s as) := by
  intro s
  have hgood : s.Good := Session.good_begin discrete deterministic monotonic realtime real wakeId
  refine ⟨?_, hgood.readings_pairwise, fun hwithin => ?_⟩
  · exact Runs.along_congr (I := Session.Good) (fun _ a h => h.step a)
      (fun _ a h => h.seen_le_iff a)
      hgood
  · have hinv : ∀ (s : Session) (a : Turn), s.Good ∧ s.Low → s.Within a →
        (s.step a).Good ∧ (s.step a).Low :=
      fun s a h hw => ⟨h.1.step a, (h.1.low_step h.2 hw).1⟩
    have hlow : s.Good ∧ s.Low := ⟨hgood, nofun⟩
    constructor
    · refine (Runs.always_of_along hinv hlow hwithin).imp fun s h hbel real => ?_
      exact (h.2 hbel).value_lt h.1.bounded real
    · exact Runs.along_of_along hinv (fun s a h hw => (h.1.low_step h.2 hw).2) hlow hwithin

def guestTurn (op : Op) (h : op.guest = true) : Turn := { call := .guest ⟨op, h⟩ }

/-- A timestamp at 10 is open while the clock is granted up to 8, and a call is charged 5. -/
theorem timestamps_sound_open :
    let s := Session.begin true false 0 0 0 0
    let as := [⟨.attach, []⟩, guestTurn (.registerWake 12 false none) rfl, ⟨.enterTimestamp 10, []⟩,
      ⟨.grant 0 0 0 8, []⟩, guestTurn (.charge 5) rfl]
    (as.foldl Session.step s).below = true ∧ (as.foldl Session.step s).clock.stamp = 10 ∧
      Runs.Always Session.step
          (fun s => s.below = true → ∀ real, (s.clock.peek real).2 < s.clock.stamp) s as ∧
        Runs.Along Session.step Session.Withholds s as := by
  refine ⟨by decide, by decide, (timestamps_sound true false 0 0 0 0 _).2.2 ?_⟩
  exact ⟨trivial, trivial, fun _ => by decide, fun _ => by decide, trivial, trivial⟩

/-- **Both promises break.** Left at 5, a timestamp entered at 10 takes the code under test from 10
back to 9. Under a grant up to 1000, a charge of 5 carries the clock to 14 while the timestamp at 10
is open, and hands out the waker due at 12. -/
theorem timestamps_broken : (Session.begin true false 0 0 0 0).readings
        [⟨.attach, []⟩, ⟨.enterTimestamp 10, []⟩, guestTurn .advance rfl, ⟨.leaveTimestamp 5, []⟩,
          guestTurn .advance rfl] = [10, 9] ∧
      let s := [⟨.attach, []⟩, ⟨.grant 0 0 0 1000, []⟩, guestTurn (.registerWake 12 false none) rfl,
        ⟨.enterTimestamp 10, []⟩].foldl Session.step (Session.begin true false 0 0 0 0)
      let charge := guestTurn (.charge 5) rfl
      s.handed charge = [0] ∧ (s.step charge).below = true ∧
        (s.step charge).clock.stamp = 10 ∧ ((s.step charge).clock.peek 0).2 = 14 := by
  decide

end Snare.Time
