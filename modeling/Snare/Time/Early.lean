import Snare.Time.Timestamps

/-!
# No waker is handed out early

`Ledger` says that a registered waker is handed out once. Here is when: not before the clock reads
its deadline. An operation that hands out wakers leaves alone what is due past the reading it ends
with (`Spares`); so a waker due later would be handed out and yet outstanding, and no id is both.
-/

namespace Snare.Time

open List Clock

variable {c c₁ c' : Clock} {v upto : Nat} {handed : List Nat}

/-- The waker `id` is in a table, not yet delivered, for the time `at_`. -/
def Clock.Awaits (c : Clock) (id at_ : Nat) : Prop :=
  id ∈ undelivered (c.pending.entries.get? at_) ∨ id ∈ undelivered (c.foreign.entries.get? at_)

/-- A pass over a table up to an instant that is not the clock's own. -/
def Op.isPass : Op → Bool
  | .takeUpto .. | .takeWakers .. | .fireUpto .. => true
  | _ => false

theorem mem_pendingIds {t : Timers} {id : Nat} :
    id ∈ t.pendingIds ↔ ∃ at_, id ∈ undelivered (t.entries.get? at_) := by
  constructor
  · intro hid
    obtain ⟨⟨at_, e⟩, he, hid⟩ := mem_flatMap.mp hid
    exact ⟨at_, by rwa [SortedMap.get?_eq_some_iff.mpr he]⟩
  · rintro ⟨at_, hid⟩
    cases he : t.entries.get? at_ with
    | none => simp [he, undelivered] at hid
    | some e =>
      rw [he] at hid
      exact mem_flatMap.mpr ⟨(at_, e), SortedMap.get?_eq_some_iff.mp he, hid⟩

theorem mem_outstanding {id : Nat} : id ∈ outstanding c.tables ↔ ∃ at_, c.Awaits id at_ := by
  simp only [outstanding, mem_append, tables, mem_pendingIds, Clock.Awaits, exists_or]

/-- What an operation hands out that touches nothing due past `v` is due by `v`. -/
theorem Moves.due (hm : Moves c.tables c'.tables handed) (hnodup : (outstanding c.tables).Nodup)
    (hs : Spares (v + 1) c c') {id : Nat} (hid : id ∈ handed) :
    (∃ at_, c.Awaits id at_) ∧ ∀ at_, c.Awaits id at_ → at_ ≤ v := by
  refine ⟨mem_outstanding.mp (hm.perm.mem_iff.mpr (mem_append_left _ hid)), fun at_ hat => ?_⟩
  by_contra hlt
  obtain ⟨hp, hf⟩ := hs at_ (by omega)
  have hleft : id ∈ outstanding c'.tables :=
    mem_outstanding.mpr ⟨at_, by rwa [Clock.Awaits, hp, hf]⟩
  exact disjoint_of_nodup_append (hm.perm.nodup_iff.mp hnodup) hid hleft

/-! ## What each operation touches -/

theorem Spares.trans {t : Nat} (h : Spares t c c₁) (h' : Spares t c₁ c') : Spares t c c' :=
  fun at_ hat => ⟨(h' at_ hat).1.trans (h at_ hat).1, (h' at_ hat).2.trans (h at_ hat).2⟩

theorem peek_le_heldValue (c : Clock) (real : Nat) :
    (c.peek real).2 ≤ (c.peek real).1.heldValue := by
  unfold peek
  split
  · exact le_max_right _ _
  · split
    · exact le_rfl
    · exact le_max_right _ _

theorem registerTimer_handed (c : Clock) (real after : Nat) (foreign event : Bool) (me : Nat) :
    (c.registerTimer real after foreign event me).2.2 = [] ∨
      (c.registerTimer real after foreign event me).2.2 =
          ((c.peek real).1.prune (c.peek real).2).2.2 ∧
        (c.registerTimer real after foreign event me).1.heldValue = (c.peek real).1.heldValue := by
  unfold Clock.registerTimer
  split
  · exact .inl rfl
  · dsimp only
    split
    · exact .inl rfl
    · split
      · exact .inr ⟨rfl, rfl⟩
      · exact .inl rfl

theorem spares_fireUpto (h : Exact c.tables) (heq : c₁.tables = c.tables) (from_ : Nat)
    (hle : upto ≤ c₁.heldValue) : Spares ((c₁.fireUpto from_ upto).1.heldValue + 1) c
      (c₁.fireUpto from_ upto).1 := by
  rw [← heq] at h
  have hlt : ∀ at_, (c₁.fireUpto from_ upto).1.heldValue + 1 ≤ at_ → upto < at_ :=
    fun at_ hat => hle.trans_lt hat
  refine (spares_of_tables heq).trans fun at_ hat => ⟨?_, ?_⟩
  · exact (fireUpto_delivered h.1 _ _ from_ upto).later at_ (hlt at_ hat)
  · exact (fireUpto_delivered h.2 _ _ from_ upto).later at_ (hlt at_ hat)

theorem spares_takeWakers (h : Exact c₁.tables) (hle : upto ≤ v) :
    Spares (v + 1) c₁ (c₁.takeWakers upto).1 := fun at_ hat =>
  ⟨(takeWakers_delivered h.1 _ upto).later at_ (by omega),
    (takeWakers_delivered h.2 _ upto).later at_ (by omega)⟩

theorem spares_landed {c₂ : Clock} {now landing : Nat} (hex : Exact c₂.tables)
    (hs : ∀ v, now ≤ v → Spares (v + 1) c c₂) (hnow : now ≤ c₂.heldValue)
    (hle : landing ≤ c₂.heldValue) : Spares ((c₂.takeWakers landing).1.heldValue + 1) c
      (c₂.takeWakers landing).1 :=
  (hs _ hnow).trans (spares_takeWakers hex hle)

section

variable (h : Exact c.tables)
include h

theorem spares_charge (real latency : Nat) :
    Spares ((c.charge real latency).1.heldValue + 1) c (c.charge real latency).1 := by
  unfold charge
  split
  · unfold chargeDriven
    simp only
    split
    · exact spares_of_tables (peek_tables c real)
    · split <;> dsimp only
      · refine spares_fireUpto h ((creepPastTimerAt_tables _ _).trans ?_) _ ?_
        · exact peek_tables c real
        · rcases creepPastTimerAt_eq _ _ with heq | ⟨-, heq⟩ <;> rw [heq] <;>
            exact (le_max_right _ _).trans (le_max_right _ _)
      · refine spares_fireUpto h ?_ _ ((le_max_right _ _).trans (le_max_right _ _))
        exact peek_tables c real
  · split
    · dsimp only
      refine spares_fireUpto h ?_ _ (le_max_left _ _)
      exact stepBase_tables c latency
    · exact spares_of_tables rfl

theorem spares_spinStep (real real' step : Nat) :
    Spares ((c.spinStep real real' step).1.heldValue + 1) c (c.spinStep real real' step).1 := by
  unfold spinStep
  split
  · exact spares_of_tables rfl
  · split
    · exact spares_of_tables rfl
    · simp only
      generalize (if (c.peek real).1.spinDueSince = 0 then max real' 1 else
        (c.peek real).1.spinDueSince) = since
      split
      · exact spares_of_tables (peek_tables c real)
      · dsimp only
        refine spares_fireUpto h ?_ _ (le_max_left _ _)
        exact peek_tables c real

theorem spares_pruned (real : Nat) (hle : (c.peek real).2 ≤ v) :
    Spares (v + 1) c ((c.peek real).1.prune (c.peek real).2).1 := by
  have hex : Exact (c.peek real).1.tables := (peek_tables c real).symm ▸ h
  exact (spares_of_tables (peek_tables c real)).trans fun at_ hat =>
    ⟨(takeUpto_delivered hex.1 _).later at_ (by omega), rfl⟩

theorem spares_advanceToNextDeadline (real real' gone : Nat) :
    Spares ((c.advanceToNextDeadline real real' gone).1.heldValue + 1) c
      (c.advanceToNextDeadline real real' gone).1 := by
  have hprune := spares_pruned h real (peek_le_heldValue c real)
  unfold advanceToNextDeadline
  split
  · exact spares_of_tables rfl
  split
  · exact hprune
  split
  · exact spares_of_tables rfl
  unfold skipToNextDeadline
  simp only
  split
  · exact spares_of_tables (peek_tables c real)
  split
  · exact hprune
  split
  · exact hprune
  dsimp only
  refine spares_landed (h.after (peek_tables c real) fun h => h.prune _).exact_
    (fun v => spares_pruned h real) ?_ ((le_max_right _ _).trans (le_max_left _ _))
  exact (peek_le_heldValue c real).trans (max_le_max_right _ (le_max_left _ _))

theorem spares_advanceToNextAnyDeadline (real real' gone : Nat) :
    Spares ((c.advanceToNextAnyDeadline real real' gone).1.heldValue + 1) c
      (c.advanceToNextAnyDeadline real real' gone).1 := by
  have hex : Exact (c.peek real).1.tables := (peek_tables c real).symm ▸ h
  have hprune : ∀ v, (c.peek real).2 ≤ v → Spares (v + 1) c
      { ((c.peek real).1.prune (c.peek real).2).1 with
        foreign := (takeUpto (c.peek real).1.foreign (c.peek real).2).1 } := fun v hv =>
    (spares_of_tables (peek_tables c real)).trans fun at_ hat =>
      ⟨(takeUpto_delivered hex.1 _).later at_ (by omega),
        (takeUpto_delivered hex.2 _).later at_ (by omega)⟩
  have hnow := peek_le_heldValue c real
  unfold advanceToNextAnyDeadline
  split
  · exact spares_of_tables rfl
  simp only
  split
  · exact spares_of_tables (peek_tables c real)
  split
  · exact hprune _ hnow
  split
  · exact hprune _ hnow
  dsimp only
  refine spares_landed ⟨(takeUpto_delivered hex.1 _).exact_, (takeUpto_delivered hex.2 _).exact_⟩
    hprune ?_ ((le_max_right _ _).trans (le_max_left _ _))
  exact hnow.trans (max_le_max_right _ (le_max_left _ _))

theorem handed_due (hnodup : (outstanding c.tables).Nodup) {real real' wakeId : Nat} {op : Op}
    (hop : op.isPass = false) {id : Nat} (hid : id ∈ (c.apply real real' wakeId op).2.handed) :
    (∃ at_, c.Awaits id at_) ∧
      ∀ at_, c.Awaits id at_ → at_ ≤ (c.apply real real' wakeId op).1.heldValue := by
  have hex : Exact (c.peek real).1.tables := (peek_tables c real).symm ▸ h
  cases op with
  | takeUpto | takeWakers | fireUpto => cases hop
  | charge latency => exact (h.charge real _).due hnodup (spares_charge h real _) hid
  | spinStep step => exact (h.spinStep real real' _).due hnodup (spares_spinStep h real real' _) hid
  | advanceToNextDeadline gone =>
    exact (h.advanceToNextDeadline real real' gone).due hnodup
      (spares_advanceToNextDeadline h real real' gone) hid
  | advanceToNextAnyDeadline gone =>
    exact (h.advanceToNextAnyDeadline real real' gone).due hnodup
      (spares_advanceToNextAnyDeadline h real real' gone) hid
  | wakeDue =>
    exact (h.after (peek_tables c real) fun h => h.takeWakers _).due hnodup
      ((spares_of_tables (peek_tables c real)).trans
        (spares_takeWakers hex (peek_le_heldValue c real))) hid
  | registerTimer after foreign event me =>
    rcases registerTimer_handed c real after.toNat foreign event me with hnone | ⟨hpruned, hvalue⟩
    · have hid : id ∈ (c.registerTimer real after.toNat foreign event me).2.2 := hid
      simp [hnone] at hid
    · -- what is registered comes after what is pruned
      have hid : id ∈ ((c.peek real).1.prune (c.peek real).2).2.2 := hpruned ▸ hid
      obtain ⟨hsome, hdue⟩ := (h.after (peek_tables c real) fun h => h.prune _).due hnodup
        (spares_pruned h real (peek_le_heldValue c real)) hid
      exact ⟨hsome, fun at_ hat => (hdue at_ hat).trans hvalue.ge⟩
  | _ => cases hid

end

/-- **No waker is handed out early.** In every run of a sim's clock, whatever an operation hands
out, but for a bare pass over a table, was registered for a time the clock has reached. -/
theorem wakers_never_early (discrete deterministic : Bool) (monotonic realtime : UInt64)
    (real wakeId : Nat) (as : List Action) :
    Runs.Along Ledger.step (fun l a => a.op.isPass = false → ∀ id ∈ (l.world.effect a).handed,
        (∃ at_, l.world.clock.Awaits id at_) ∧ ∀ at_, l.world.clock.Awaits id at_ →
          at_ ≤ (l.world.step a).clock.value (l.world.step a).real)
      (Ledger.begin discrete deterministic monotonic realtime real wakeId) as := by
  refine Runs.along_of_step (I := fun l : Ledger => l.Good ∧ l.world.Plain)
    (fun l a h => ⟨h.1.step a, h.2.step a⟩) (fun l a h hop id hid => ?_)
    ⟨Ledger.good_begin .., World.plain_begin ..⟩ as
  have hnodup : (outstanding l.world.clock.tables).Nodup :=
    ((h.1.perm.nodup_iff.mp h.1.nodup).sublist (sublist_append_right _ _)).sublist
      (sublist_append_right _ _)
  obtain ⟨hsome, hdue⟩ := handed_due h.1.exact_ hnodup hop hid
  exact ⟨hsome, fun at_ hat => (hdue at_ hat).trans ((h.2.step a).1.le_value _)⟩

end Snare.Time
