import Mathlib

/-!
# Cyclic actions of a tester

A round of a tester's loop runs each action at most once, when its next instant has come, and the
loop ends by its deadline only when no action is behind.

* **`Ticked`**: the ticks run so far are the first instants of the action's grid, and the next one
  is where the action stands;
* **`cyclic_on_grid`**: so at the end they are the grid's instants up to the deadline.
-/

namespace Snare.Tester

/-- An action with its grid, where it stands, and what was run: each tick's instant and the time. -/
structure Cyclic where
  period : Nat
  phase : Nat
  next : Nat
  ran : List (Nat × Nat) := []
  period_pos : 0 < period

/-- The reads of the clock a round makes, before its actions and after them, and whether the stop
flag or a finish condition ends the run. -/
structure Round where
  now : Nat
  after : Nat
  stop : Bool

inductive End where
  | stopped
  | deadline
  deriving DecidableEq

/-- `push_cyclic`, which panics on a period of zero. -/
def pushCyclic (period phase now : Nat) (cyclic : List Cyclic) : Option (List Cyclic) :=
  if h : 0 < period then
    some (cyclic ++ [{ period, phase, next := now, period_pos := h }])
  else none

namespace Cyclic

variable (start : Nat) (c : Cyclic)

def begin_ : Cyclic := { c with next := start + c.phase, ran := [] }

def turn (deadline : Option Nat) (now : Nat) : Cyclic :=
  let cyclicUntil := deadline.elim now fun span => min now (start + span)
  if c.next ≤ cyclicUntil then
    { c with next := c.next + c.period, ran := c.ran ++ [(c.next, now)] }
  else c

def instant (k : Nat) : Nat := start + c.phase + k * c.period

end Cyclic

/-- The loop of `Inner::run`, over what its rounds meet; `none` while it goes on. -/
def run (start : Nat) (deadline : Option Nat) :
    List Cyclic → List Round → Option (End × List Cyclic)
  | _, [] => none
  | cyclic, r :: rounds =>
    let cyclic := cyclic.map (Cyclic.turn start · deadline r.now)
    if r.stop then some (.stopped, cyclic)
    else
      match deadline.filter (· ≤ r.after - start) with
      | some span =>
        if cyclic.any (·.next ≤ start + span) then run start deadline cyclic rounds
        else some (.deadline, cyclic)
      | none => run start deadline cyclic rounds

variable {start span : Nat} {c : Cyclic}

theorem Cyclic.instant_lt {j k : Nat} (h : j < k) : c.instant start j < c.instant start k :=
  Nat.add_lt_add_left (Nat.mul_lt_mul_of_pos_right h c.period_pos) _

/-- The action `d` is `c` after its first ticks, none of them early and all up to the deadline. -/
def Ticked (start span : Nat) (c d : Cyclic) : Prop :=
  ∃ n, d.period = c.period ∧ d.next = c.instant start n
    ∧ d.ran.map Prod.fst = (List.range n).map (c.instant start)
    ∧ ∀ e ∈ d.ran, e.1 ≤ e.2 ∧ e.1 ≤ start + span

/-- What was run of `c`: the grid's instants up to the deadline, in order, each once and not early.
-/
def OnGrid (start span : Nat) (c d : Cyclic) : Prop :=
  ∃ n, d.ran.map Prod.fst = (List.range n).map (c.instant start)
    ∧ (∀ k, k < n ↔ c.instant start k ≤ start + span) ∧ ∀ e ∈ d.ran, e.1 ≤ e.2

theorem ticked_begin (c : Cyclic) : Ticked start span c (c.begin_ start) :=
  ⟨0, rfl, by simp [Cyclic.begin_, Cyclic.instant], rfl, nofun⟩

theorem Ticked.turn {d : Cyclic} (h : Ticked start span c d) (now : Nat) :
    Ticked start span c (d.turn start (some span) now) := by
  obtain ⟨n, hperiod, hnext, hran, htimes⟩ := h
  unfold Cyclic.turn
  dsimp only [Option.elim]
  split
  · rename_i hdue
    rw [Nat.le_min] at hdue
    refine ⟨n + 1, hperiod, ?_, ?_, ?_⟩
    · simp only [hnext, hperiod, Cyclic.instant, Nat.succ_mul, Nat.add_assoc]
    · simp only [List.map_append, hran, List.range_succ, List.map_cons, List.map_nil, hnext]
    · intro e he
      rcases List.mem_append.mp he with he | he
      · exact htimes e he
      · rw [List.mem_singleton.mp he]
        exact hdue
  · exact ⟨n, hperiod, hnext, hran, htimes⟩

theorem Ticked.onGrid {d : Cyclic} (h : Ticked start span c d) (hend : start + span < d.next) :
    OnGrid start span c d := by
  obtain ⟨n, -, hnext, hran, htimes⟩ := h
  refine ⟨n, hran, fun k => ⟨fun hk => ?_, fun hle => ?_⟩, fun e he => (htimes e he).1⟩
  · have hmem : c.instant start k ∈ d.ran.map Prod.fst := by
      rw [hran]
      exact List.mem_map_of_mem (List.mem_range.mpr hk)
    obtain ⟨e, he, heq⟩ := List.mem_map.mp hmem
    exact heq ▸ (htimes e he).2
  · by_contra hk
    rcases Nat.eq_or_lt_of_le (Nat.le_of_not_lt hk) with rfl | hlt
    · omega
    · have := @Cyclic.instant_lt start c _ _ hlt
      omega

/-- **Cyclic actions run on their grid.** A run that ends by its deadline has run each action once
for each instant `start + phase + k * period` up to the deadline, in order and never early, and for
no other instant, however the clock moves. -/
theorem cyclic_on_grid (cyclic : List Cyclic) (rounds : List Round) {final : List Cyclic}
    (hrun : run start (some span) (cyclic.map (Cyclic.begin_ start)) rounds
      = some (.deadline, final)) :
    List.Forall₂ (OnGrid start span) cyclic final := by
  have hticked : List.Forall₂ (Ticked start span) cyclic (cyclic.map (Cyclic.begin_ start)) := by
    rw [List.forall₂_map_right_iff]
    exact List.forall₂_same.mpr fun c _ => ticked_begin c
  generalize cyclic.map (Cyclic.begin_ start) = ds at hrun hticked
  -- the actions have ticked along their grids before every round
  induction rounds generalizing ds with
  | nil => cases hrun
  | cons r rounds ih =>
    have hturned : List.Forall₂ (Ticked start span) cyclic
        (ds.map (Cyclic.turn start · (some span) r.now)) := by
      rw [List.forall₂_map_right_iff]
      exact hticked.imp fun _ _ h => h.turn r.now
    unfold run at hrun
    dsimp only at hrun
    split at hrun
    · cases hrun
    split at hrun
    · rename_i span' hspan
      obtain rfl : span = span' := Option.some.inj (Option.mem_filter_iff.mp hspan).1
      split at hrun
      · exact ih _ hrun hturned
      · rename_i hbehind
        cases hrun
        have hahead : ∀ d ∈ ds.map (Cyclic.turn start · (some span) r.now),
            start + span < d.next := by
          simpa using hbehind
        have hboth := (List.forall₂_and_left _ _).mpr ⟨hahead, hturned.flip⟩
        exact hboth.flip.imp fun c d h => Ticked.onGrid h.2 h.1
    · exact ih _ hrun hturned

/-- Two actions, and a jump past the deadline of 7. -/
def lateActions : List Cyclic := ((pushCyclic 3 0 0 []).bind (pushCyclic 7 7 0)).getD []

def lateRounds : List Round := [⟨5, 6, false⟩, ⟨20, 20, false⟩, ⟨20, 20, false⟩]

theorem cyclic_on_grid_late : ∃ final,
    run 5 (some 7) (lateActions.map (Cyclic.begin_ 5)) lateRounds = some (.deadline, final)
      ∧ List.Forall₂ (OnGrid 5 7) lateActions final :=
  ⟨_, rfl, cyclic_on_grid lateActions lateRounds rfl⟩

end Snare.Tester
