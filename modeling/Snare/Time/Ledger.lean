import Snare.Lib.Runs
import Snare.Time.TimerIndex
import Snare.Time.World

/-!
# Every registered waker is settled once

A ledger beside the clock notes what a run's operations register, hand out and cancel. The two
tables of a clock enter a proof only through

* **`Moves t t' handed`**: from exact tables, an operation leaves exact tables, the wakers it hands
  out being those that left them.

The operations of `Clock` compose it (`Moves.trans`) from what `TimerIndex` says of one table, and
`wakers_settled_once` runs them.
-/

namespace Snare.Time

open List

def Clock.tables (c : Clock) : Timers × Timers := (c.pending, c.foreign)

def outstanding (t : Timers × Timers) : List Nat := t.1.pendingIds ++ t.2.pendingIds

def Unknown (t : Timers × Timers) (id : Nat) : Prop :=
  t.1.wakeDeadlines.get? id = none ∧ t.2.wakeDeadlines.get? id = none

def Exact (t : Timers × Timers) : Prop := t.1.Exact ∧ t.2.Exact

/-- An operation that hands out `handed` and registers nothing. -/
structure Moves (t t' : Timers × Timers) (handed : List Nat) : Prop where
  exact_ : Exact t'
  perm : (outstanding t).Perm (handed ++ outstanding t')
  fresh : ∀ id, Unknown t id → Unknown t' id

variable {t : Timers × Timers}

theorem Moves.refl (h : Exact t) : Moves t t [] :=
  ⟨h, .refl _, fun _ => id⟩

theorem Moves.trans {t' t'' : Timers × Timers} {handed handed' : List Nat}
    (h : Moves t t' handed) (h' : Moves t' t'' handed') : Moves t t'' (handed ++ handed') where
  exact_ := h'.exact_
  perm := by
    rw [append_assoc]
    exact h.perm.trans (h'.perm.append_left _)
  fresh := fun id hid => h'.fresh id (h.fresh id hid)

variable {p f : Timers} {upto wakeId : Nat} {taken : List Nat}

theorem moves_of_delivered {p' f' : Timers} {upto' : Nat} {taken' : List Nat}
    (hp : Delivered p upto p' taken) (hf : Delivered f upto' f' taken') :
    Moves (p, f) (p', f') (taken ++ taken') where
  exact_ := ⟨hp.exact_, hf.exact_⟩
  perm := by
    refine (hp.perm.append hf.perm).trans ?_
    -- the foreign table's wakers move in front of what the participants' table keeps
    simp only [outstanding, append_assoc]
    refine List.Perm.append_left _ ?_
    rw [← append_assoc, ← append_assoc]
    exact perm_append_comm.append_right _
  fresh := fun id hid => ⟨hp.fresh id hid.1, hf.fresh id hid.2⟩

theorem moves_of_pending {p' : Timers} (hf : f.Exact)
    (hp : Delivered p upto p' taken) : Moves (p, f) (p', f) taken := by
  have := moves_of_delivered hp (Delivered.refl hf upto)
  rwa [append_nil] at this

theorem moves_of_foreign {f' : Timers} (hp : p.Exact)
    (hf : Delivered f upto f' taken) : Moves (p, f) (p, f') taken :=
  moves_of_delivered (Delivered.refl hp upto) hf

theorem moves_of_same {t' : Timers × Timers} (h : Exact t')
    (hp : t'.1.pendingIds.Perm t.1.pendingIds) (hf : t'.2.pendingIds.Perm t.2.pendingIds)
    (hp' : t'.1.wakeDeadlines = t.1.wakeDeadlines) (hf' : t'.2.wakeDeadlines = t.2.wakeDeadlines) :
    Moves t t' [] where
  exact_ := h
  perm := hp.symm.append hf.symm
  fresh := fun _ hid => ⟨hp' ▸ hid.1, hf' ▸ hid.2⟩

/-! ## The operations -/

section Ops

variable {c c₁ : Clock} {t : Timers × Timers}

theorem Exact.after {t' : Timers × Timers} {handed : List Nat} (h : Exact t)
    (heq : c₁.tables = t) (hm : Exact c₁.tables → Moves c₁.tables t' handed) :
    Moves t t' handed :=
  heq ▸ hm (heq ▸ h)

theorem peek_tables (c : Clock) (real : Nat) : (c.peek real).1.tables = c.tables := by
  unfold Clock.peek
  split
  · rfl
  · split <;> rfl

theorem creepPastTimerAt_tables (c : Clock) (t : Nat) :
    (c.creepPastTimerAt t).tables = c.tables := by
  unfold Clock.creepPastTimerAt
  simp only
  split
  · rfl
  · split <;> rfl

theorem Exact.fireUpto (h : Exact c.tables) (from_ t : Nat) :
    Moves c.tables (c.fireUpto from_ t).1.tables (c.fireUpto from_ t).2.2 :=
  moves_of_delivered (fireUpto_delivered h.1 _ _ from_ t) (fireUpto_delivered h.2 _ _ from_ t)

theorem Exact.fireUpto_after (h : Exact t) {from_ upto : Nat}
    (heq : c₁.tables = t) : Moves t (c₁.fireUpto from_ upto).1.tables
    (c₁.fireUpto from_ upto).2.2 :=
  h.after heq fun h => h.fireUpto from_ upto

theorem Exact.takeWakers (h : Exact c.tables) (t : Nat) :
    Moves c.tables (c.takeWakers t).1.tables (c.takeWakers t).2 :=
  moves_of_delivered (takeWakers_delivered h.1 _ t) (takeWakers_delivered h.2 _ t)

theorem Exact.takeWakers_after (h : Exact t) {upto : Nat}
    (heq : c₁.tables = t) : Moves t (c₁.takeWakers upto).1.tables (c₁.takeWakers upto).2 :=
  h.after heq fun h => h.takeWakers upto

section

variable (h : Exact c.tables)
include h

theorem Exact.prune (upto : Nat) :
    Moves c.tables (c.prune upto).1.tables (c.prune upto).2.2 :=
  moves_of_pending h.2 (takeUpto_delivered h.1 upto)

theorem Exact.chargeDriven (real latency : Nat) :
    Moves c.tables (c.chargeDriven real latency).1.tables (c.chargeDriven real latency).2.2 := by
  refine h.after (peek_tables c real) fun h => ?_
  unfold Clock.chargeDriven
  simp only
  split
  · exact .refl h
  · split <;> dsimp only
    · exact h.fireUpto_after (creepPastTimerAt_tables _ _)
    · exact h.fireUpto_after rfl

theorem Exact.charge (real latency : Nat) :
    Moves c.tables (c.charge real latency).1.tables (c.charge real latency).2.2 := by
  unfold Clock.charge
  split
  · exact h.chargeDriven real latency
  · split
    · dsimp only
      exact h.fireUpto_after rfl
    · exact .refl h

theorem Exact.spinStep (real real' step : Nat) :
    Moves c.tables (c.spinStep real real' step).1.tables (c.spinStep real real' step).2.2 := by
  unfold Clock.spinStep
  split
  · exact .refl h
  · split
    · exact .refl h
    · refine h.after (peek_tables c real) fun h => ?_
      simp only
      generalize (if (c.peek real).1.spinDueSince = 0 then max real' 1 else
        (c.peek real).1.spinDueSince) = since
      split
      · exact .refl h
      · dsimp only
        exact h.fireUpto_after rfl

theorem Exact.skipToNextDeadline (real real' gone : Nat) :
    Moves c.tables (c.skipToNextDeadline real real' gone).1.tables
      (c.skipToNextDeadline real real' gone).2.2 := by
  refine h.after (peek_tables c real) fun h => ?_
  unfold Clock.skipToNextDeadline
  simp only
  split
  · exact .refl h
  · have hprune := h.prune (c.peek real).2
    split
    · exact hprune
    · split
      · exact hprune
      · dsimp only
        exact hprune.trans (hprune.exact_.takeWakers_after rfl)

theorem Exact.advanceToNextDeadline (real real' gone : Nat) :
    Moves c.tables (c.advanceToNextDeadline real real' gone).1.tables
      (c.advanceToNextDeadline real real' gone).2.2 := by
  unfold Clock.advanceToNextDeadline
  split
  · exact .refl h
  · split
    · exact h.after (peek_tables c real) fun h => h.prune _
    · split
      · exact .refl h
      · exact h.skipToNextDeadline real real' gone

theorem Exact.advanceToNextAnyDeadline (real real' gone : Nat) :
    Moves c.tables (c.advanceToNextAnyDeadline real real' gone).1.tables
      (c.advanceToNextAnyDeadline real real' gone).2.2 := by
  unfold Clock.advanceToNextAnyDeadline
  split
  · exact .refl h
  · refine h.after (peek_tables c real) fun h => ?_
    simp only
    split
    · exact .refl h
    · have hprune := h.prune (c.peek real).2
      have hboth := hprune.trans
        (moves_of_foreign hprune.exact_.1 (takeUpto_delivered h.2 (c.peek real).2))
      split
      · exact hboth
      · split
        · exact hboth
        · dsimp only
          exact hboth.trans (hboth.exact_.takeWakers_after rfl)

end

theorem Exact.addPending_pending (h : Exact t) (wake : Nat) (event : Bool)
    (me : Nat) : Moves t (t.1.addPending wake event me, t.2) [] :=
  moves_of_same ⟨h.1.addPending wake event me, h.2⟩
    (pendingIds_addPending _ wake event me) (.refl _)
    rfl rfl

theorem Exact.addPending_foreign (h : Exact t) (wake : Nat) (event : Bool)
    (me : Nat) : Moves t (t.1, t.2.addPending wake event me) [] :=
  moves_of_same ⟨h.1, h.2.addPending wake event me⟩ (.refl _)
    (pendingIds_addPending _ wake event me)
    rfl rfl

theorem Exact.registerTimer (h : Exact c.tables) (real after : Nat) (foreign event : Bool)
    (me : Nat) : Moves c.tables (c.registerTimer real after foreign event me).1.tables
      (c.registerTimer real after foreign event me).2.2 := by
  unfold Clock.registerTimer
  split
  · exact .refl h
  · refine h.after (peek_tables c real) fun h => ?_
    simp only
    split
    · exact h.addPending_foreign _ event me
    · split
      · have hprune := h.prune (c.peek real).2
        have := hprune.trans
          (hprune.exact_.addPending_pending (satAdd (c.peek real).2 after) event me)
        rwa [append_nil] at this
      · exact h.addPending_pending _ event me

theorem releaseHeld_tables (c : Clock) (real : Nat) : (c.releaseHeld real).tables = c.tables := by
  unfold Clock.releaseHeld
  split
  · rfl
  · simp only
    split <;> exact peek_tables c real

theorem Exact.unregisterTimer (h : Exact c.tables) (real wake : Nat) (foreign : Bool) (me : Nat) :
    Moves c.tables (c.unregisterTimer real wake foreign me).tables [] := by
  unfold Clock.unregisterTimer
  rw [releaseHeld_tables]
  have hpending : ∀ p, c.pending.unregisterTimer wake me = some p →
      Moves c.tables (p, c.foreign) [] := by
    intro p hp
    obtain ⟨hexact, hperm⟩ := Timers.Exact.unregisterTimer h.1 hp
    exact moves_of_same ⟨hexact, h.2⟩ hperm (.refl _) (unregisterTimer_wakeDeadlines hp) rfl
  have hforeign : ∀ f, c.foreign.unregisterTimer wake me = some f →
      Moves c.tables (c.pending, f) [] := by
    intro f hf
    obtain ⟨hexact, hperm⟩ := Timers.Exact.unregisterTimer h.2 hf
    exact moves_of_same ⟨h.1, hexact⟩ (.refl _) hperm rfl (unregisterTimer_wakeDeadlines hf)
  -- whichever table is searched first, at most one changes
  cases hp : c.pending.unregisterTimer wake me with
  | none =>
    cases hf : c.foreign.unregisterTimer wake me with
    | none => cases foreign <;> exact .refl h
    | some f => cases foreign <;> exact hforeign f hf
  | some p =>
    cases hf : c.foreign.unregisterTimer wake me with
    | none => cases foreign <;> exact hpending p hp
    | some f =>
      cases foreign
      · exact hpending p hp
      · exact hforeign f hf

theorem Exact.unregisterEvent (h : Exact c.tables) (wake : Nat) :
    Moves c.tables (c.unregisterEvent wake).tables [] := by
  obtain ⟨hexact, hperm⟩ := Timers.Exact.unregisterEvent h.1 wake
  exact moves_of_same ⟨hexact, h.2⟩ hperm (.refl _) (unregisterEvent_wakeDeadlines _ wake) rfl

theorem setRate_tables (c : Clock) (real : Nat) (rate : Clock.Rate) :
    (c.setRate real rate).tables = c.tables := by
  cases rate <;> simp only [Clock.setRate] <;> split <;> rfl

theorem setValue_tables (c : Clock) (real real' value : Nat) :
    (c.setValue real real' value).1.tables = c.tables := by
  rw [← peek_tables c real]
  unfold Clock.setValue
  simp only
  split
  · rfl
  · split
    · rfl
    · split <;> rfl

theorem stepBase_tables (c : Clock) (by_ : Nat) : (c.stepBase by_).1.tables = c.tables := rfl

theorem advance_tables (c : Clock) (real : Nat) : (c.advance real).1.tables = c.tables := by
  unfold Clock.advance
  split
  · exact peek_tables c real
  · exact stepBase_tables c 1000

theorem holdOutside_tables (c : Clock) (real real' : Nat) (on : Bool) :
    (c.holdOutside real real' on).tables = c.tables := by
  unfold Clock.holdOutside
  split
  · rfl
  · split
    · exact peek_tables c real
    · rfl

theorem grant_tables (c : Clock) (real real' anchorV anchorReal rateQ32 horizon : Nat) :
    (c.grant real real' anchorV anchorReal rateQ32 horizon).tables = c.tables := by
  unfold Clock.grant
  split
  · rfl
  · simp only
    split <;> exact peek_tables c real

theorem jumpDriven_tables (c : Clock) (real real' t : Nat) (toNext past : Bool) :
    (c.jumpDriven real real' t toNext past).1.tables = c.tables := by
  unfold Clock.jumpDriven
  simp only
  split <;> exact peek_tables c real

end Ops

/-! ## What an operation settles -/

/-- **What an operation does to the accounts**: from tables `t` it leaves exact tables, does not
panic, and what was outstanding and what it registers is what it hands out, cancels and leaves. -/
structure Settles (t : Timers × Timers) (r : Clock × Effect) : Prop where
  exact_ : Exact r.1.tables
  perm : (r.2.registered ++ outstanding t).Perm
    (r.2.handed ++ (r.2.cancelled ++ outstanding r.1.tables))
  fresh : ∀ id, id ∉ r.2.registered → Unknown t id → Unknown r.1.tables id
  panicked : r.2.panicked = false

theorem Moves.settles {c' : Clock} {handed : List Nat}
    (h : Moves t c'.tables handed) {reading : Option Nat} :
    Settles t (c', { reading, handed }) :=
  ⟨h.exact_, h.perm, fun id _ => h.fresh id, rfl⟩

variable {c : Clock}

section

variable (h : Exact c.tables)
include h

theorem Exact.settles {c' : Clock} {reading : Option Nat}
    (heq : c'.tables = c.tables) : Settles c.tables (c', { reading }) :=
  Moves.settles (heq.symm ▸ Moves.refl h)

theorem Exact.registerWake (at_ : UInt64) (foreign : Bool)
    (owner : Option Nat) (hid : Unknown c.tables wakeId) (real real' : Nat) :
    Settles c.tables (c.apply real real' wakeId (.registerWake at_ foreign owner)) := by
  simp only [Clock.apply, Clock.registerWake]
  split
  · exact h.settles rfl
  · split
    · refine ⟨⟨h.1, h.2.registerWake _ owner hid.2⟩, ?_,
        fun id hne hunknown => ⟨hunknown.1, ?_⟩, rfl⟩
      · show (wakeId :: (c.pending.pendingIds ++ c.foreign.pendingIds)).Perm
          (c.pending.pendingIds ++ (c.foreign.registerWake at_.toNat wakeId owner).pendingIds)
        exact perm_middle.symm.trans ((pendingIds_registerWake _ _ _ _).symm.append_left _)
      · show (c.foreign.registerWake at_.toNat wakeId owner).wakeDeadlines.get? id = none
        rw [get?_registerWake_of_ne _ owner (by simpa using hne)]
        exact hunknown.2
    · refine ⟨⟨h.1.registerWake _ owner hid.1, h.2⟩, ?_,
        fun id hne hunknown => ⟨?_, hunknown.2⟩, rfl⟩
      · exact (pendingIds_registerWake c.pending at_.toNat wakeId owner).symm.append_right _
      · show (c.pending.registerWake at_.toNat wakeId owner).wakeDeadlines.get? id = none
        rw [get?_registerWake_of_ne _ owner (by simpa using hne)]
        exact hunknown.1

theorem Exact.cancelWake (id real real' wakeId : Nat) :
    Settles c.tables (c.apply real real' wakeId (.cancelWake id)) := by
  simp only [Clock.apply, Clock.cancelWake]
  have hp : c.pending.Exact := h.1
  have hf : c.foreign.Exact := h.2
  rcases hp.cancelWake id with ⟨habsent, -⟩ | ⟨p, waker, hdone, hexact, hperm, hfresh⟩
  · rcases hf.cancelWake id with ⟨habsent', -⟩ | ⟨f, waker, hdone, hexact, hperm, hfresh⟩
    · rw [habsent, habsent']
      exact h.settles rfl
    · rw [habsent, hdone]
      have htables := releaseHeld_tables { c with foreign := f } real
      refine ⟨?_, ?_, fun x _ hx => ?_, rfl⟩ <;> dsimp only <;> rw [htables]
      · exact ⟨h.1, hexact⟩
      · -- the waker moves in front of what the participants' table holds
        show (c.pending.pendingIds ++ c.foreign.pendingIds).Perm
          (waker.toList ++ (c.pending.pendingIds ++ f.pendingIds))
        refine (hperm.append_left _).trans ?_
        rw [← append_assoc, ← append_assoc]
        exact perm_append_comm.append_right _
      · exact ⟨hx.1, hfresh x hx.2⟩
  · rw [hdone]
    have htables := releaseHeld_tables { c with pending := p } real
    refine ⟨?_, ?_, fun x _ hx => ?_, rfl⟩ <;> dsimp only <;> rw [htables]
    · exact ⟨hexact, h.2⟩
    · exact (hperm.append_right _).trans (by rw [append_assoc]; rfl)
    · exact ⟨hfresh x hx.1, hx.2⟩

theorem Exact.apply (hid : Unknown c.tables wakeId)
    (real real' : Nat) (op : Op) : Settles c.tables (c.apply real real' wakeId op) := by
  cases op with
  | peek => exact h.settles (peek_tables c real)
  | advance => exact h.settles (advance_tables c real)
  | setRate rate => exact h.settles (setRate_tables c real rate)
  | resume => exact h.settles (by simp only [Clock.resume]; split <;> rfl)
  | advanceBy d => exact h.settles (by simp only [Clock.advanceBy]; split <;> rfl)
  | setValue value => exact h.settles (setValue_tables c real real' _)
  | charge latency => exact (h.charge real _).settles
  | spinStep step => exact (h.spinStep real real' _).settles
  | advanceToNextDeadline gone => exact (h.advanceToNextDeadline real real' gone).settles
  | advanceToNextAnyDeadline gone => exact (h.advanceToNextAnyDeadline real real' gone).settles
  | jumpTo wake => exact h.settles (by simp only [Clock.jumpTo]; split <;> rfl)
  | setDormant on =>
    cases on
    · exact h.settles rfl
    · exact h.settles (peek_tables c real)
  | holdOutside on => exact h.settles (holdOutside_tables c real real' on)
  | holdChild => exact h.settles (holdOutside_tables c real real' true)
  | releaseChild => exact h.settles rfl
  | attachDriven => exact h.settles (peek_tables c real)
  | detachDriven =>
    exact h.settles (by simp only [Clock.detachDriven]; split; exacts [rfl, peek_tables c real])
  | grant anchorV anchorReal rateQ32 horizon => exact h.settles (grant_tables c real real' _ _ _ _)
  | freeze => exact h.settles (by simp only [Clock.freeze]; split; exacts [rfl, peek_tables c real])
  | jumpDriven t toNext past => exact h.settles (jumpDriven_tables c real real' _ toNext past)
  | addPending wake me =>
    have hm : Moves c.tables (c.addPending wake.toNat me).tables [] :=
      h.addPending_pending _ false me
    exact hm.settles
  | registerTimer after foreign event me => exact (h.registerTimer real _ foreign event me).settles
  | registerWake at_ foreign owner => exact h.registerWake at_ foreign owner hid real real'
  | cancelWake id => exact h.cancelWake id real real' wakeId
  | unregisterTimer wake foreign me => exact (h.unregisterTimer real _ foreign me).settles
  | unregisterEvent wake => exact (h.unregisterEvent _).settles
  | wakeDue => exact (h.after (peek_tables c real) fun h => h.takeWakers _).settles
  | takeUpto foreign upto =>
    cases foreign with
    | false => exact (h.prune upto.toNat).settles
    | true =>
      have hm : Moves c.tables { c with foreign := (takeUpto c.foreign upto.toNat).1 }.tables _ :=
        moves_of_foreign h.1 (takeUpto_delivered h.2 upto.toNat)
      exact hm.settles
  | takeWakers t => exact (h.takeWakers _).settles
  | fireUpto from_ t => exact (h.fireUpto _ _).settles
  | otherWakeId => exact h.settles rfl

end

theorem apply_registered (c : Clock) (real real' wakeId : Nat) (op : Op) :
    (c.apply real real' wakeId op).2.registered = [] ∨
      (c.apply real real' wakeId op).2.registered = [wakeId] ∧ op.takesId c = true := by
  cases op with
  | registerWake at_ foreign owner =>
    simp only [Clock.apply, Clock.registerWake, Op.takesId]
    split
    · exact .inl rfl
    · next hj =>
      refine .inr ⟨?_, by simpa using hj⟩
      split <;> rfl
  | takeUpto foreign upto => cases foreign <;> exact .inl rfl
  | _ => exact .inl rfl

theorem Settles.unknown {real real' : Nat} {op : Op}
    (h : Settles c.tables (c.apply real real' wakeId op))
    (hun : ∀ id, wakeId ≤ id → Unknown c.tables id) (id : Nat)
    (hid : (if op.takesId c then wakeId + 1 else wakeId) ≤ id) :
    Unknown (c.apply real real' wakeId op).1.tables id := by
  have hle : wakeId ≤ id := by
    split at hid <;> omega
  refine h.fresh id (fun hmem => ?_) (hun id hle)
  rcases apply_registered c real real' wakeId op with heq | ⟨heq, htakes⟩
  · rw [heq] at hmem
    cases hmem
  · rw [heq, mem_singleton] at hmem
    rw [if_pos htakes] at hid
    omega

/-! ## The ledger -/

/-- The clock and what its runs have registered, handed out and cancelled so far. -/
structure Ledger where
  world : World
  registered : List Nat := []
  handed : List Nat := []
  cancelled : List Nat := []
  panicked : Bool := false

def Ledger.step (l : Ledger) (a : Action) : Ledger :=
  let e := l.world.effect a
  { world := l.world.step a
    registered := e.registered ++ l.registered
    handed := e.handed ++ l.handed
    cancelled := e.cancelled ++ l.cancelled
    panicked := l.panicked || e.panicked }

def Ledger.outstanding (l : Ledger) : List Nat := Time.outstanding l.world.clock.tables

/-- **The accounts balance**: both cross indices are exact, no `unwrap` of a cancel failed, and each
registered waker, and no other, is handed out, cancelled or outstanding, once in all. -/
structure Ledger.Balanced (l : Ledger) : Prop where
  pending : l.world.clock.pending.Exact
  foreign : l.world.clock.foreign.Exact
  panicked : l.panicked = false
  once : ∀ id, l.handed.count id + l.cancelled.count id + l.outstanding.count id =
    if id ∈ l.registered then 1 else 0

/-- What carries the balance along a run: ids are given out in order, so a new one is known nowhere.
-/
structure Ledger.Good (l : Ledger) : Prop where
  exact_ : Exact l.world.clock.tables
  panicked : l.panicked = false
  perm : l.registered.Perm (l.handed ++ (l.cancelled ++ l.outstanding))
  nodup : l.registered.Nodup
  below : ∀ id ∈ l.registered, id < l.world.wakeId
  unknown : ∀ id, l.world.wakeId ≤ id → Unknown l.world.clock.tables id

theorem Ledger.Good.balanced {l : Ledger} (h : l.Good) : l.Balanced where
  pending := h.exact_.1
  foreign := h.exact_.2
  panicked := h.panicked
  once := fun id => by
    have hcount := h.perm.count_eq id
    simp only [count_append] at hcount
    rw [Nat.add_assoc, ← hcount]
    split
    · next hmem => exact count_eq_one_of_mem h.nodup hmem
    · next hmem => exact count_eq_zero_of_not_mem hmem

theorem Ledger.Good.step {l : Ledger} (h : l.Good) (a : Action) : (l.step a).Good := by
  have hs : Settles l.world.clock.tables ((l.world.step a).clock, l.world.effect a) :=
    h.exact_.apply (h.unknown _ le_rfl) _ _ a.op
  have hid : l.world.wakeId ≤ (l.world.step a).wakeId := by
    simp only [World.step]
    split <;> omega
  -- what is registered is the id just taken, which was known nowhere
  have hreg : (l.world.effect a).registered = [] ∨
      (l.world.effect a).registered = [l.world.wakeId] ∧
      (l.world.step a).wakeId = l.world.wakeId + 1 := by
    rcases apply_registered l.world.clock _ _ l.world.wakeId a.op with heq | ⟨heq, htakes⟩
    · exact .inl heq
    · exact .inr ⟨heq, by simp only [World.step, htakes, if_true]⟩
  refine ⟨hs.exact_, ?_, ?_, ?_, ?_, ?_⟩
  · show (l.panicked || (l.world.effect a).panicked) = false
    rw [h.panicked, hs.panicked]
    rfl
  · show ((l.world.effect a).registered ++ l.registered).Perm
      ((l.world.effect a).handed ++ l.handed ++
        ((l.world.effect a).cancelled ++ l.cancelled ++ (l.step a).outstanding))
    refine perm_iff_count.mpr fun id => ?_
    have hbefore := h.perm.count_eq id
    have hnow := hs.perm.count_eq id
    have hout : (l.step a).world.clock = (l.world.step a).clock := rfl
    simp only [count_append, Ledger.outstanding, hout] at hbefore hnow ⊢
    omega
  · show ((l.world.effect a).registered ++ l.registered).Nodup
    rcases hreg with heq | ⟨heq, -⟩
    · rw [heq]
      exact h.nodup
    · rw [heq]
      exact nodup_cons.mpr ⟨fun hmem => absurd (h.below _ hmem) (lt_irrefl _), h.nodup⟩
  · intro id hmem
    rcases mem_append.mp hmem with hnew | hold
    · rcases hreg with heq | ⟨heq, hnext⟩
      · rw [heq] at hnew
        cases hnew
      · rw [heq, mem_singleton] at hnew
        show id < (l.world.step a).wakeId
        omega
    · exact (h.below id hold).trans_le hid
  · exact hs.unknown h.unknown

/-- A sim's clock as its threads begin to run, with nothing registered. -/
def Ledger.begin (discrete deterministic : Bool) (monotonic realtime : UInt64) (real wakeId : Nat) :
    Ledger :=
  { world := World.begin discrete deterministic monotonic realtime real wakeId }

theorem Ledger.good_begin (discrete deterministic : Bool) (monotonic realtime : UInt64)
    (real wakeId : Nat) :
    (Ledger.begin discrete deterministic monotonic realtime real wakeId).Good :=
  ⟨⟨Timers.exact_default, Timers.exact_default⟩, rfl, .refl _, .nil, nofun,
    fun id _ => ⟨SortedMap.get?_empty id, SortedMap.get?_empty id⟩⟩

/-- **Each registered waker is settled once, and the cross index stays exact**, whatever operations
of the clock run and in whatever order. -/
theorem wakers_settled_once (discrete deterministic : Bool) (monotonic realtime : UInt64)
    (real wakeId : Nat) (as : List Action) : Runs.Always Ledger.step Ledger.Balanced
      (Ledger.begin discrete deterministic monotonic realtime real wakeId) as :=
  (Runs.always_of_step (I := Ledger.Good) (fun _ a h => h.step a)
    (Ledger.good_begin discrete deterministic monotonic realtime real wakeId) as).imp
      fun _ h => h.balanced

end Snare.Time
