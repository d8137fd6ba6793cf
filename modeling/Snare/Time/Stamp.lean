import Snare.Time.Executive
import Snare.Time.Ledger
import Snare.Time.Monotone

/-!
# Timestamps

What the code under test reads is `seen`: the larger of the clock and an open timestamp. Two things
are asked of a session of executive calls and everyone else's operations.

* Readings never decrease. Every call but the two that move a stamp keeps them (`Keeps`), and those
  two keep them exactly when they do not fall behind the open stamp (`seen_le_iff`).
* While a timestamp entered with the clock below it is open, the clock stays below it and nothing
  due at it or later is delivered. What carries this is `Under`: the *horizon* lies below the stamp.
  A horizon at or past the stamp lets a charge, or real time, carry the clock there.
-/

namespace Snare.Time

open Clock (apply call)

namespace Clock

variable {c c' : Clock} {real real' : Nat}

def seen (c : Clock) (real : Nat) : Nat := max (c.value real) c.stamp

theorem Keeps.seen_le (h : Keeps real real' c c') : c.seen real ≤ c'.seen real' := by
  have hval := h.value_le
  have hstamp := h.stamp
  simp only [seen]
  omega

theorem seen_mono (c : Clock) (h : real ≤ real') : c.seen real ≤ c.seen real' := by
  have := c.value_mono h
  simp only [seen]
  omega

theorem value_setStamp (c : Clock) (t : Option Nat) (real : Nat) :
    (c.setStamp t).value real = c.value real :=
  value_congr (show (c.setStamp t).line = c.line from rfl) rfl rfl rfl real

theorem Bounded.setStamp (h : c.Bounded) (hd : c.driven = true) {t : Option Nat}
    (ht : t.getD 0 ≤ u64Max) : (c.setStamp t).Bounded :=
  bounded_of_driven hd (h.driven hd).1 (h.driven hd).2 h.horizon_le ht

theorem value_peek (c : Clock) (h : real ≤ real') :
    (c.peek real).1.value real' = c.value real' := by
  cases hl : c.onLine with
  | false => rw [peek_of_held hl]
  | true =>
    have hline := valueAt_mono c.line h
    rw [peek_of_line hl, value_of_line (c := { c with floor := c.value real }) hl, value_of_line hl,
      value_of_line hl]
    simp only [line] at *
    omega

/-! ## What a read and a jump leave -/

/-- What an executive's moves are limited by: the owner, the horizon and the open stamp. -/
def frame (c : Clock) : Bool × Nat × Nat := (c.driven, c.horizon, c.stamp)

theorem peek_frame (c : Clock) (real : Nat) : (c.peek real).1.frame = c.frame := by
  cases hl : c.onLine with
  | false => rw [peek_of_held hl]
  | true =>
    rw [peek_of_line hl]
    rfl

theorem driven_of_frame (h : c'.frame = c.frame) : c'.driven = c.driven := congrArg (·.1) h

theorem stamp_of_frame (h : c'.frame = c.frame) : c'.stamp = c.stamp := congrArg (·.2.2) h

theorem jumpDriven_landing (hd : c.driven = true) (t : Nat) (toNext past : Bool) :
    (c.jumpDriven real real' t toNext past).2.2 =
      max (c.value real) ((c.peek real).1.landing (c.value real) t toNext) := by
  have hd' : (c.peek real).1.driven = true := (driven_of_frame (c.peek_frame real)).trans hd
  simp only [Clock.jumpDriven, hd', Bool.not_true, Bool.false_eq_true, if_false, value]

theorem landing_of_tables (h : c'.tables = c.tables) (now t : Nat) (toNext : Bool) :
    c'.landing now t toNext = c.landing now t toNext := by
  have hpending : c'.pending = c.pending := congrArg Prod.fst h
  rw [landing, landing, hpending]

theorem landing_false (c : Clock) (now t : Nat) : c.landing now t false = t := by
  unfold landing
  cases c.pending.nextAfter now <;> rfl

theorem Peeked.value_publishLine {c₁ : Clock} {now dest rateQ32 horizon : Nat}
    (hp : Peeked c real c₁ now) (hd : c₁.driven = true) (hle : now ≤ dest) (hmax : dest ≤ u64Max)
    (hhor : dest ≤ horizon) : (c₁.publishLine dest real' rateQ32 horizon).value real' = dest := by
  have hheld := hp.held_eq
  rw [value_of_line (by simp [onLine, publishLine, hd])]
  simp only [line, Line.valueAt, publishLine, heldValue, Nat.sub_self, Nat.zero_mul,
    Nat.zero_div] at *
  omega

theorem Bounded.jumpDriven_value (h : c.Bounded) (hd : c.driven = true) {t : Nat} (ht : t ≤ u64Max)
    (toNext past : Bool) :
    (c.jumpDriven real real' t toNext past).1.value real' =
      (c.jumpDriven real real' t toNext past).2.2 := by
  rcases hp : c.peek real with ⟨c₁, now⟩
  have hpk := h.peeked hp
  have hd₁ : c₁.driven = true := by rw [hpk.eq_floor]; exact hd
  have hmax := hpk.now_le
  have hdest : max now (c₁.landing now t toNext) ≤ u64Max :=
    max_le hmax ((c₁.landing_le now t toNext).trans ht)
  simp only [Clock.jumpDriven, hp, hd₁, Bool.not_true, Bool.false_eq_true, if_false]
  exact hpk.value_publishLine hd₁ (le_max_left _ _) hdest
    ((le_reach hdest past).1.trans (le_max_right _ _))

theorem jumpDriven_frame (hd : c.driven = true) (t : Nat) (toNext past : Bool) :
    (c.jumpDriven real real' t toNext past).1.frame =
      (true, max c.horizon (if past then creepPast (c.jumpDriven real real' t toNext past).2.2
        else (c.jumpDriven real real' t toNext past).2.2), c.stamp) := by
  have hframe := c.peek_frame real
  simp only [frame, Prod.mk.injEq] at hframe
  obtain ⟨hd', hhor, hstamp⟩ := hframe
  simp only [Clock.jumpDriven, hd', hd, Bool.not_true, Bool.false_eq_true, if_false, frame,
    publishLine, hhor, hstamp]

theorem jumpDriven_driven (hd : c.driven = true) (t : Nat) (toNext past : Bool) :
    (c.jumpDriven real real' t toNext past).1.driven = true :=
  congrArg (·.1) (jumpDriven_frame hd t toNext past)

/-- What reads leave: only the floor may have moved, and no reading from `real` on has changed. -/
structure Reread (real : Nat) (c c' : Clock) : Prop where
  eq_floor : c' = { c with floor := c'.floor }
  bounded : c'.Bounded
  value : ∀ real', real ≤ real' → c'.value real' = c.value real'

theorem Bounded.reread (h : c.Bounded) (real : Nat) : Reread real c (c.peek real).1 :=
  ⟨(h.peeked rfl).eq_floor, (h.peeked rfl).bounded, fun _ => c.value_peek⟩

theorem Bounded.reread_refl (h : c.Bounded) (real : Nat) : Reread real c c :=
  ⟨rfl, h, fun _ _ => rfl⟩

section

variable (h : Reread real c c')
include h

theorem Reread.later (hle : real ≤ real') : Reread real' c c' :=
  ⟨h.eq_floor, h.bounded, fun r hr => h.value r (hle.trans hr)⟩

theorem Reread.trans {c'' : Clock} (h' : Reread real c' c'') : Reread real c c'' := by
  refine ⟨?_, h'.bounded, fun r hr => (h'.value r hr).trans (h.value r hr)⟩
  rw [h'.eq_floor, h.eq_floor]

theorem Reread.frame : c'.frame = c.frame := by rw [h.eq_floor]; rfl

theorem Reread.tables : c'.tables = c.tables := by rw [h.eq_floor]; rfl

theorem Reread.atSimTime (t : Nat) : c'.atSimTime t = c.atSimTime t := by
  rw [h.eq_floor]
  rfl

theorem Reread.keeps {r₁ r₂ : Nat} (hle : r₁ ≤ r₂) (hle' : real ≤ r₂) :
    Keeps r₁ r₂ c c' :=
  ⟨h.bounded, h.value r₂ hle' ▸ c.value_mono hle, .inl (stamp_of_frame h.frame)⟩

end

theorem Keeps.wait {r₁ r₂ r₃ : Nat} (h : Keeps r₁ r₂ c c') (hle : r₂ ≤ r₃) : Keeps r₁ r₃ c c' :=
  h.trans (keeps_of_core h.bounded hle rfl)

end Clock

/-! ## The executive's calls -/

namespace Executive

open Clock

variable {c : Clock} {r : Nat → Nat}

theorem releasePassed_core (c : Clock) (real before after : Nat) :
    (releasePassed c real before after).1.core = c.core ∨
      (releasePassed c real before after).1.core = (c.peek real).1.core := by
  unfold releasePassed
  simp only
  split
  · split <;> exact .inr rfl
  · exact .inl rfl

section

variable (h : c.Bounded)
include h

theorem keeps_releasePassed (real before after : Nat) :
    Keeps real real c (releasePassed c real before after).1 := by
  rcases releasePassed_core c real before after with hcore | hcore
  · exact keeps_of_core h le_rfl hcore
  · exact h.keeps_of_peek_core hcore

theorem keeps_attachTo (hr : Monotone r) : Keeps (r 0) (r 2) c (attachTo c r).1 := by
  have hk : Keeps (r 0) (r 1) c (c.attachDriven (r 0) (r 1)) := h.attachDriven
  exact (hk.wait (hr (show 1 ≤ 2 by decide))).trans (hk.bounded.keeps_of_peek_core rfl)

theorem keeps_grant (hr : Monotone r) (anchorV anchorReal rateQ32 horizon : Nat) :
    Keeps (r 0) (r 4) c (grant c r anchorV anchorReal rateQ32 horizon).1 := by
  have hread := h.reread (r 0)
  have hgrant := hread.bounded.grant (satAdd_le (c.peek (r 0)).1.origin anchorV)
    (satAdd_le (c.peek (r 0)).1.origin horizon) anchorReal
    (if c.deterministic then 0 else rateQ32) (hr (show 1 ≤ 2 by decide))
  have hafter := hgrant.bounded.reread (r 3)
  have h01 := hr (show 0 ≤ 1 by decide)
  have h34 := hr (show 3 ≤ 4 by decide)
  exact (((hread.keeps h01 h01).trans hgrant).wait (hr (show 2 ≤ 3 by decide))).trans
    ((hafter.keeps h34 h34).trans (keeps_releasePassed hafter.bounded (r 4) _ _))

theorem reread_timerBlocker {real real' : Nat} (hle : real ≤ real')
    (before : Option Nat) : Reread real' c (timerBlocker c real real' before).1 := by
  have hread := (h.reread real).later hle
  unfold timerBlocker
  simp only
  split
  · exact hread
  · split
    · exact hread
    · exact hread.trans (hread.bounded.reread real')

theorem keeps_jumpTo (hr : Monotone r) (t : Nat) (quiescent : Bool) :
    Keeps (r 0) (r 2) c (jumpTo c r t quiescent).1 := by
  have hread := reread_timerBlocker h (le_refl (r 0)) none
  have h01 := hr (show 0 ≤ 1 by decide)
  unfold jumpTo
  split
  · exact keeps_of_core h (hr (show 0 ≤ 2 by decide)) rfl
  · simp only
    split
    · exact hread.keeps (hr (show 0 ≤ 2 by decide)) (hr (show 0 ≤ 2 by decide))
    · exact ((hread.keeps h01 h01).trans (hread.bounded.jumpDriven (satAdd_le _ t) true true)).core
        (fireUpto_core _ _ _)

theorem enterTimestamp_seen (hd : c.driven = true) (real real' t : Nat) :
    (enterTimestamp c real real' t).Bounded ∧
      (enterTimestamp c real real' t).seen real' = max (c.value real) (c.atSimTime t) := by
  have hle : c.atSimTime t - 1 ≤ u64Max := (Nat.sub_le _ _).trans (satAdd_le _ t)
  have hk : Keeps real real' c _ := h.jumpDriven hle false false
  refine ⟨hk.bounded.setStamp (jumpDriven_driven hd _ _ _) (satAdd_le _ t), ?_⟩
  show max (Clock.value _ real') (c.atSimTime t) = _
  rw [enterTimestamp, value_setStamp, h.jumpDriven_value hd hle,
    jumpDriven_landing hd, landing_false]
  omega

theorem enterTimestampChecked_cases (hr : Monotone r) (t : Nat) (quiescent : Bool) :
    ∃ c₁, Reread (r 1) c c₁ ∧
      if quiescent = true ∧ (timerBlocker c (r 0) (r 1) (some (c.atSimTime t))).2 = false then
        enterTimestampChecked c r t quiescent = (enterTimestamp c₁ (r 2) (r 3) t, true)
      else enterTimestampChecked c r t quiescent = (c₁, false) := by
  cases quiescent with
  | false => exact ⟨c, h.reread_refl (r 1), rfl⟩
  | true =>
    refine ⟨_, reread_timerBlocker h (hr (show 0 ≤ 1 by decide)) (some (c.atSimTime t)), ?_⟩
    simp only [enterTimestampChecked, Bool.not_true, Bool.false_eq_true, if_false, true_and]
    cases (timerBlocker c (r 0) (r 1) (some (c.atSimTime t))).2 <;> rfl

theorem leaveTimestamp_seen (hd : c.driven = true) (real real' t : Nat) :
    (leaveTimestamp c real real' t).1.Bounded ∧
      (leaveTimestamp c real real' t).1.seen real' = max (c.value real) (c.atSimTime t) := by
  have hle : c.atSimTime t ≤ u64Max := satAdd_le _ t
  have hjump : Keeps real real' c _ := h.jumpDriven hle false true
  have hk := hjump.core
    (fireUpto_core _ (c.jumpDriven real real' (c.atSimTime t) false true).2.1 (c.atSimTime t))
  refine ⟨hk.bounded.setStamp (jumpDriven_driven hd _ _ _) (Nat.zero_le _), ?_⟩
  show max (Clock.value _ real') 0 = _
  rw [leaveTimestamp, value_setStamp, value_eq_of_core (fireUpto_core _ _ _),
    h.jumpDriven_value hd hle, jumpDriven_landing hd, landing_false, Nat.max_zero]

end

end Executive

/-- The call does not fall behind the open timestamp: it enters or leaves at the stamp or later, or
the clock has reached the stamp. -/
def Call.NotBehind (c : Clock) (r : Nat → Nat) : Call → Prop
  | .enterTimestamp t | .leaveTimestamp t =>
    c.driven = true → c.stamp ≤ max (c.peek (r 0)).2 (c.atSimTime t.toNat)
  | .enterTimestampChecked t quiescent =>
    c.driven = true → quiescent = true →
      (Executive.timerBlocker c (r 0) (r 1) (some (c.atSimTime t.toNat))).2 = false →
        c.stamp ≤ max (c.peek (r 2)).2 (c.atSimTime t.toNat)
  | _ => True

instance (c : Clock) (r : Nat → Nat) : DecidablePred (Call.NotBehind c r)
  | .enterTimestamp _ | .leaveTimestamp _ => inferInstanceAs (Decidable (_ → _))
  | .enterTimestampChecked .. => inferInstanceAs (Decidable (_ → _ → _ → _))
  | .attach | .grant .. | .freeze | .jumpTo .. | .drop | .flow | .guest _ => .isTrue trivial

section Calls

open Clock

variable {c : Clock} {r : Nat → Nat} {real : Nat}

theorem seen_le_iff_of_keeps {c' : Clock} {real' real'' : Nat} {P : Prop} (hP : P)
    (hle : real ≤ real') (h : Keeps real' real'' c c') : c.seen real ≤ c'.seen real'' ↔ P :=
  ⟨fun _ => hP, fun _ => (c.seen_mono hle).trans h.seen_le⟩

theorem seen_le_iff_of_target {c' : Clock} {real' real'' target : Nat} (hle : real ≤ real')
    (hseen : c'.seen real'' = max (c.value real') target) :
    c.seen real ≤ c'.seen real'' ↔ c.stamp ≤ max (c.value real') target := by
  have := c.value_mono hle
  rw [hseen, seen]
  omega

/-- **What a call does to what the code under test reads**: it falls only if the call falls behind
the open timestamp. -/
theorem seen_le_iff (h : c.Bounded) (hr : Monotone r) (hle : real ≤ r 0) (wakeId : Nat)
    (call : Call) : (c.call r wakeId call).1.Bounded ∧
      (c.seen real ≤ (c.call r wakeId call).1.seen (r (call.samples - 1)) ↔
        call.NotBehind c r) := by
  have h01 := hr (show 0 ≤ 1 by decide)
  have hsame : ∀ i, Keeps (r 0) (r i) c c := fun i => keeps_of_core h (hr (Nat.zero_le i)) rfl
  -- a call that keeps the reading is never behind
  have hkeeps : ∀ {c' : Clock} {i : Nat} {P : Prop}, P → Keeps (r 0) (r i) c c' →
      c'.Bounded ∧ (c.seen real ≤ c'.seen (r i) ↔ P) :=
    fun hP hk => ⟨hk.bounded, seen_le_iff_of_keeps hP hle hk⟩
  cases call with
  | attach =>
    simp only [call]
    split
    · exact hkeeps trivial (hsame 2)
    · exact hkeeps trivial (Executive.keeps_attachTo h hr)
  | grant anchorV anchorReal rateQ32 horizon =>
    simp only [call]
    split
    · exact hkeeps trivial (hsame 4)
    · exact hkeeps trivial (Executive.keeps_grant h hr _ _ _ _)
  | freeze => exact hkeeps trivial (h.freeze h01)
  | jumpTo t quiescent =>
    simp only [call]
    split
    · exact hkeeps trivial (hsame 2)
    · exact hkeeps trivial (Executive.keeps_jumpTo h hr _ quiescent)
  | enterTimestamp t =>
    simp only [call]
    split
    · next hd => exact hkeeps (fun hd' => by simp [hd'] at hd) (hsame 1)
    · next hd =>
      have hd : c.driven = true := by simpa using hd
      obtain ⟨hb, hseen⟩ := Executive.enterTimestamp_seen h hd (r 0) (r 1) t.toNat
      exact ⟨hb, (seen_le_iff_of_target hle hseen).trans ⟨fun hs _ => hs, fun hs => hs hd⟩⟩
  | enterTimestampChecked t quiescent =>
    have h12 := hr (show 1 ≤ 2 by decide)
    have h13 := hr (show 1 ≤ 3 by decide)
    simp only [call]
    split
    · next hd => exact hkeeps (fun hd' => by simp [hd'] at hd) (hsame 3)
    · next hd =>
      have hd : c.driven = true := by simpa using hd
      obtain ⟨c₁, hread, hcases⟩ := Executive.enterTimestampChecked_cases h hr t.toNat quiescent
      split at hcases <;> rw [hcases]
      · next henters =>
        -- the reads before the entry change neither the reading nor the stamp
        have hd₁ : c₁.driven = true := (driven_of_frame hread.frame).trans hd
        obtain ⟨hb, hseen⟩ := Executive.enterTimestamp_seen hread.bounded hd₁ (r 2) (r 3) t.toNat
        rw [hread.value (r 2) h12, hread.atSimTime] at hseen
        refine ⟨hb, (seen_le_iff_of_target (hle.trans (hr (show 0 ≤ 2 by decide))) hseen).trans ?_⟩
        exact ⟨fun hs _ _ _ => hs, fun hs => hs hd henters.1 henters.2⟩
      · next hrefused =>
        exact hkeeps (fun _ hq hblocker => absurd ⟨hq, hblocker⟩ hrefused)
          (hread.keeps (hr (show 0 ≤ 3 by decide)) h13)
  | leaveTimestamp t =>
    simp only [call]
    split
    · next hd => exact hkeeps (fun hd' => by simp [hd'] at hd) (hsame 1)
    · next hd =>
      have hd : c.driven = true := by simpa using hd
      obtain ⟨hb, hseen⟩ := Executive.leaveTimestamp_seen h hd (r 0) (r 1) t.toNat
      exact ⟨hb, (seen_le_iff_of_target hle hseen).trans ⟨fun hs _ => hs, fun hs => hs hd⟩⟩
  | drop => exact hkeeps trivial (h.detachDriven h01)
  | flow => exact hkeeps trivial (h.keeps_of_peek_core rfl)
  | guest op => exact hkeeps trivial (h.apply h01 wakeId op.1)

end Calls

/-! ## Below an open timestamp -/

section Confined

open Clock

variable {c c' c'' : Clock} {r : Nat → Nat} {real real' : Nat}

def Clock.Under (c : Clock) : Prop := c.driven = true ∧ c.horizon < c.stamp

/-- What is due at `t` or later is as it was. -/
def Spares (t : Nat) (c c' : Clock) : Prop :=
  ∀ at_, t ≤ at_ → c'.pending.entries.get? at_ = c.pending.entries.get? at_ ∧
    c'.foreign.entries.get? at_ = c.foreign.entries.get? at_

/-- The clock stays under the open timestamp, and what is due at it or later is as it was. -/
structure Confined (c c' : Clock) : Prop where
  under : c'.Under
  stamp : c'.stamp = c.stamp
  spares : Spares c.stamp c c'

theorem Clock.Under.value_lt (h : c.Under) (hb : c.Bounded) (real : Nat) : c.value real < c.stamp :=
  (hb.value_le_horizon real).trans_lt h.2

theorem Clock.Under.of_frame (h : c.Under) (hframe : c'.frame = c.frame) : c'.Under := by
  simp only [frame, Prod.mk.injEq] at hframe
  exact ⟨hframe.1.trans h.1, by rw [hframe.2.1, hframe.2.2]; exact h.2⟩

theorem Confined.trans (h : Confined c c') (h' : Confined c' c'') : Confined c c'' where
  under := h'.under
  stamp := h'.stamp.trans h.stamp
  spares := fun at_ hat =>
    have h₁ := h.spares at_ hat
    have h₂ := h'.spares at_ (h.stamp.symm ▸ hat)
    ⟨h₂.1.trans h₁.1, h₂.2.trans h₁.2⟩

theorem confined_of_horizon {horizon : Nat} (htables : c'.tables = c.tables)
    (hframe : c'.frame = (true, horizon, c.stamp)) (hlt : horizon < c.stamp) : Confined c c' := by
  simp only [frame, Prod.mk.injEq] at hframe
  simp only [tables, Prod.mk.injEq] at htables
  refine ⟨⟨hframe.1, by rw [hframe.2.1, hframe.2.2]; exact hlt⟩, hframe.2.2, fun at_ _ => ?_⟩
  rw [htables.1, htables.2]
  exact ⟨rfl, rfl⟩

theorem Clock.Under.same (h : c.Under) (htables : c'.tables = c.tables)
    (hframe : c'.frame = c.frame) : Confined c c' :=
  confined_of_horizon htables (hframe.trans (by rw [frame, h.1])) h.2

theorem Clock.Reread.confined (h : Reread real c c') (hu : c.Under) : Confined c c' :=
  hu.same h.tables h.frame

section

variable (h : c.Under)
include h

theorem Clock.Under.fireUpto (hex : Exact c.tables) (from_ : Nat) {upto : Nat}
    (hlt : upto < c.stamp) : Confined c (c.fireUpto from_ upto).1 where
  under := h.of_frame rfl
  stamp := rfl
  spares := fun at_ hat =>
    ⟨(fireUpto_delivered hex.1 _ _ from_ upto).later at_ (hlt.trans_le hat),
      (fireUpto_delivered hex.2 _ _ from_ upto).later at_ (hlt.trans_le hat)⟩

theorem Clock.Under.takeWakers (hex : Exact c.tables) {upto : Nat}
    (hlt : upto < c.stamp) : Confined c (c.takeWakers upto).1 where
  under := h.of_frame rfl
  stamp := rfl
  spares := fun at_ hat =>
    ⟨(takeWakers_delivered hex.1 _ upto).later at_ (hlt.trans_le hat),
      (takeWakers_delivered hex.2 _ upto).later at_ (hlt.trans_le hat)⟩

theorem Clock.Under.freeze (hb : c.Bounded) : Confined c (c.freeze real real') := by
  have hframe := c.peek_frame real
  simp only [frame, Prod.mk.injEq] at hframe
  have hlt := h.value_lt hb real
  refine confined_of_horizon ?_ ?_ hlt
  · simp only [Clock.freeze, h.1, Bool.not_true, Bool.false_eq_true, if_false]
    exact peek_tables c real
  · simp only [Clock.freeze, h.1, Bool.not_true, Bool.false_eq_true, if_false, frame, publishLine,
      hframe, value]

theorem Clock.Under.grant (hb : c.Bounded) {anchorV horizon : Nat}
    (hanchor : anchorV < c.stamp) (hhor : horizon < c.stamp) (anchorReal rateQ32 : Nat) :
    Confined c (c.grant real real' anchorV anchorReal rateQ32 horizon) := by
  have hframe := c.peek_frame real
  simp only [frame, Prod.mk.injEq] at hframe
  obtain ⟨hd', -, hstamp⟩ := hframe
  have hlt : (c.peek real).2 < c.stamp := h.value_lt hb real
  have htables := grant_tables c real real' anchorV anchorReal rateQ32 horizon
  -- the line is anchored where the grant asks, or where the clock is if that is later
  have heq : ∃ anchor, anchor < c.stamp ∧
      (c.grant real real' anchorV anchorReal rateQ32 horizon).frame =
        (true, max horizon anchor, c.stamp) := by
    simp only [Clock.grant, h.1, Bool.not_true, Bool.false_eq_true, if_false]
    split
    · exact ⟨anchorV, hanchor, by simp only [frame, publishLine, hd', hstamp, h.1]⟩
    · exact ⟨_, hlt, by simp only [frame, publishLine, hd', hstamp, h.1]⟩
  obtain ⟨anchor, hanchor', heq⟩ := heq
  exact confined_of_horizon htables heq (max_lt hhor hanchor')

theorem Clock.Under.jumpDriven (t : Nat) (toNext past : Bool)
    (hreach : (if past then creepPast (c.jumpDriven real real' t toNext past).2.2
      else (c.jumpDriven real real' t toNext past).2.2) < c.stamp) :
    Confined c (c.jumpDriven real real' t toNext past).1 :=
  confined_of_horizon (jumpDriven_tables c real real' t toNext past)
    (jumpDriven_frame h.1 t toNext past) (max_lt h.2 hreach)

theorem Clock.Under.chargeDriven (hb : c.Bounded) (hex : Exact c.tables)
    (real latency : Nat) : Confined c (c.chargeDriven real latency).1 := by
  have hread := hb.reread real
  have hconf := hread.confined h
  have hex₁ : Exact (c.peek real).1.tables := hread.tables.symm ▸ hex
  unfold Clock.chargeDriven
  simp only
  generalize hafter : min (satAdd (c.peek real).2 latency) (c.peek real).1.horizon = after
  have hlt : after < (c.peek real).1.stamp := by
    have := hconf.under.2
    omega
  split
  · exact hconf
  · set c₂ : Clock := { (c.peek real).1 with floor := max (c.peek real).1.floor after }
    have hc₂conf : Confined (c.peek real).1 c₂ := hconf.under.same rfl rfl
    split
    · refine hconf.trans (hc₂conf.trans ?_)
      have hcreep : Confined c₂ (c₂.creepPastTimerAt after) := by
        rcases c₂.creepPastTimerAt_eq after with heq | ⟨hreach, heq⟩
        · rw [heq]
          exact hc₂conf.under.same rfl rfl
        · have hpos := hc₂conf.under.2
          refine confined_of_horizon (creepPastTimerAt_tables c₂ after) ?_
            (hreach.resolve_left (by omega))
          rw [heq, frame]
          simp only [hc₂conf.under.1]
      exact hcreep.trans (hcreep.under.fireUpto
        ((creepPastTimerAt_tables c₂ after).symm ▸ hex₁) _ (hcreep.stamp.symm ▸ hlt))
    · exact hconf.trans (hc₂conf.trans (hc₂conf.under.fireUpto hex₁ _ hlt))

end

theorem releaseHeld_frame (c : Clock) (real : Nat) : (c.releaseHeld real).frame = c.frame := by
  unfold Clock.releaseHeld
  split
  · rfl
  · simp only
    split <;> exact c.peek_frame real

theorem cancelWake_frame (c : Clock) (real id : Nat) :
    (c.cancelWake real id).1.frame = c.frame := by
  unfold Clock.cancelWake
  split
  · exact releaseHeld_frame _ real
  · rfl
  · split
    · exact releaseHeld_frame _ real
    · rfl
    · rfl

theorem holdOutside_frame (c : Clock) (real real' : Nat) (on : Bool) :
    (c.holdOutside real real' on).frame = c.frame := by
  unfold Clock.holdOutside
  split
  · rfl
  · split
    · exact c.peek_frame real
    · rfl

theorem registerTimer_driven (hd : c.driven = true) (real after : Nat) (foreign event : Bool)
    (me : Nat) : (c.registerTimer real after foreign event me).1.frame = c.frame ∧
      (c.registerTimer real after foreign event me).2.2 = [] := by
  have hframe := c.peek_frame real
  have hd' : (c.peek real).1.driven = true := (driven_of_frame hframe).trans hd
  unfold Clock.registerTimer
  split
  · exact ⟨rfl, rfl⟩
  · simp only
    split
    · exact ⟨hframe, rfl⟩
    · split
      · next hscaled => simp [hd'] at hscaled
      · exact ⟨hframe, rfl⟩

/-- What the code under test does to a clock under an open timestamp: it registers and drops timers,
handing out no waker; else it is confined. -/
theorem Clock.Under.guest (h : c.Under) (hb : c.Bounded) (hex : Exact c.tables)
    (real real' wakeId : Nat)
    {op : Op} (hop : op.guest = true) :
    (c.apply real real' wakeId op).1.Under ∧ (c.apply real real' wakeId op).1.stamp = c.stamp ∧
      (if op.edits then (c.apply real real' wakeId op).2.handed = []
        else Spares c.stamp c (c.apply real real' wakeId op).1) := by
  have hconf : ∀ {c' : Clock}, Confined c c' → c'.Under ∧ c'.stamp = c.stamp ∧
      Spares c.stamp c c' :=
    fun hc => ⟨hc.under, hc.stamp, hc.spares⟩
  have hread := (hb.reread real).confined h
  -- an edit leaves the line alone
  have hedit : ∀ {c' : Clock} {handed : List Nat}, c'.frame = c.frame → handed = [] →
      c'.Under ∧ c'.stamp = c.stamp ∧ handed = [] :=
    fun hframe hnil => ⟨h.of_frame hframe, stamp_of_frame hframe, hnil⟩
  have hd := h.1
  have hsame : Confined c c := h.same rfl rfl
  cases op with
  | attachDriven | detachDriven | grant | freeze | jumpDriven => simp [Op.guest] at hop
  | takeUpto | takeWakers | fireUpto => simp [Op.guest] at hop
  | peek => exact hconf hread
  | advance => exact hconf (by simpa [apply, Clock.advance, jumps, hd] using hread)
  | setRate rate => cases rate <;> exact hconf (by simpa [apply, Clock.setRate, hd] using hsame)
  | resume => exact hconf (by simpa [apply, Clock.resume, hd] using hsame)
  | advanceBy d => exact hconf (by simpa [apply, Clock.advanceBy, hd] using hsame)
  | setValue value =>
    exact hconf (by simpa [apply, Clock.setValue, hread.under.1] using hread)
  | charge latency =>
    exact hconf (by simpa [apply, Clock.charge, hd] using h.chargeDriven hb hex real latency.toNat)
  | spinStep step => exact hconf (by simpa [apply, Clock.spinStep, hd] using hsame)
  | advanceToNextDeadline gone =>
    exact hconf (by simpa [apply, Clock.advanceToNextDeadline, hd] using hsame)
  | advanceToNextAnyDeadline gone =>
    exact hconf (by simpa [apply, Clock.advanceToNextAnyDeadline, hd] using hsame)
  | jumpTo wake => exact hconf (by simpa [apply, Clock.jumpTo, jumps, hd] using hsame)
  | setDormant on =>
    cases on with
    | true => exact hconf (hread.trans (hread.under.same rfl rfl))
    | false => exact hconf (h.same rfl rfl)
  | holdOutside on =>
    exact hconf (h.same (holdOutside_tables c real real' on) (holdOutside_frame c real real' on))
  | holdChild =>
    exact hconf
      (h.same (holdOutside_tables c real real' true) (holdOutside_frame c real real' true))
  | releaseChild => exact hconf (h.same rfl rfl)
  | wakeDue =>
    have hex₁ : Exact (c.peek real).1.tables := (peek_tables c real).symm ▸ hex
    have hlt : (c.peek real).2 < (c.peek real).1.stamp := hread.stamp.symm ▸ h.value_lt hb real
    exact hconf (hread.trans (hread.under.takeWakers hex₁ hlt))
  | otherWakeId => exact hconf hsame
  | addPending wake me => exact hedit rfl rfl
  | registerTimer after foreign event me =>
    obtain ⟨hframe, hnil⟩ := registerTimer_driven hd real after.toNat foreign event me
    exact hedit hframe hnil
  | registerWake at_ foreign owner =>
    refine hedit ?_ rfl
    simp only [apply, Clock.registerWake]
    split
    · rfl
    · split <;> rfl
  | cancelWake id => exact hedit (cancelWake_frame c real id) rfl
  | unregisterTimer wake foreign me =>
    refine hedit ((releaseHeld_frame _ real).trans ?_) rfl
    cases foreign <;> cases c.pending.unregisterTimer wake.toNat me <;>
      cases c.foreign.unregisterTimer wake.toNat me <;> rfl
  | unregisterEvent wake => exact hedit rfl rfl

end Confined

namespace Executive

open Clock

variable {c : Clock} {r : Nat → Nat}

theorem confined_releasePassed (h : c.Under) (hb : c.Bounded) (hex : Exact c.tables)
    (real before : Nat) {after : Nat} (hlt : after < c.stamp) :
    Confined c (releasePassed c real before after).1 := by
  have hread := hb.reread real
  have hconf := hread.confined h
  unfold releasePassed
  simp only
  split
  · split
    · exact hconf.trans
        (hconf.under.fireUpto (hread.tables.symm ▸ hex) before (hconf.stamp.symm ▸ hlt))
    · exact hconf
  · exact h.fireUpto hex before hlt

theorem confined_grant (h : c.Under) (hb : c.Bounded) (hex : Exact c.tables) (hr : Monotone r)
    {anchorV horizon : Nat} (hanchor : c.atSimTime anchorV < c.stamp)
    (hhor : c.atSimTime horizon < c.stamp) (anchorReal rateQ32 : Nat) :
    Confined c (grant c r anchorV anchorReal rateQ32 horizon).1 := by
  have hread := hb.reread (r 0)
  have hconf := hread.confined h
  rw [← hread.atSimTime, ← hconf.stamp] at hanchor hhor
  unfold grant
  simp only
  generalize (if c.deterministic then 0 else rateQ32) = rate
  -- the grant itself
  have hbounded := (hread.bounded.grant (satAdd_le (c.peek (r 0)).1.origin anchorV)
    (satAdd_le (c.peek (r 0)).1.origin horizon) anchorReal rate (hr (show 1 ≤ 2 by decide))).bounded
  have hgrant : Confined (c.peek (r 0)).1
      ((c.peek (r 0)).1.grant (r 1) (r 2) _ anchorReal rate _) :=
    hconf.under.grant hread.bounded hanchor hhor anchorReal rate
  -- and the read after it, where what was passed is released
  have hread' := hbounded.reread (r 3)
  have hconf' := hread'.confined hgrant.under
  have hlt := hconf'.stamp.symm ▸ hgrant.under.value_lt hbounded (r 3)
  refine hconf.trans (hgrant.trans (hconf'.trans ?_))
  refine confined_releasePassed hconf'.under hread'.bounded ?_ (r 4) _ hlt
  rw [hread'.tables, grant_tables, hread.tables]
  exact hex

theorem confined_jumpTo (h : c.Under) (hb : c.Bounded) (hex : Exact c.tables) (hr : Monotone r)
    (t : Nat) (quiescent : Bool) (hreach : quiescent = true →
      creepPast (max (c.value (r 1)) (c.landing (c.value (r 1)) (c.atSimTime t) true)) < c.stamp) :
    Confined c (jumpTo c r t quiescent).1 := by
  have h01 := hr (show 0 ≤ 1 by decide)
  have hread := reread_timerBlocker hb (le_refl (r 0)) none
  have hconf := hread.confined h
  unfold jumpTo
  split
  · exact h.same rfl rfl
  · next hquiescent =>
    have hreach := hreach (by simpa using hquiescent)
    simp only
    split
    · exact hconf
    · refine hconf.trans ?_
      generalize timerBlocker c (r 0) (r 0) none = blocked at hread hconf ⊢
      -- the reads before the jump do not change where it lands
      have hland : (blocked.1.jumpDriven (r 1) (r 2) (blocked.1.atSimTime t) true true).2.2 =
          max (c.value (r 1)) (c.landing (c.value (r 1)) (c.atSimTime t) true) := by
        rw [jumpDriven_landing hconf.under.1, hread.atSimTime, hread.value (r 1) h01,
          landing_of_tables ((peek_tables _ (r 1)).trans hread.tables)]
      rw [← hland, ← hconf.stamp] at hreach
      have hjump := hconf.under.jumpDriven _ true true hreach
      refine hjump.trans (hjump.under.fireUpto ?_ _ ?_)
      · rw [jumpDriven_tables, hread.tables]
        exact hex
      · have hle : blocked.1.atSimTime t ≤ u64Max := satAdd_le _ t
        rw [← hread.bounded.jumpDriven_value hconf.under.1 hle]
        exact hjump.under.value_lt (hread.bounded.jumpDriven hle true true).bounded (r 2)

end Executive

end Snare.Time
