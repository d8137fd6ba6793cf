import Mathlib

/-!
# Runs of a step function

A system is a step function `step : σ → α → σ` over labelled actions, and a run is the list of
its actions. Two predicates say what holds along a run:

* **`Along step C s as`**: every action of the run is taken from a state that meets `C`;
* **`Always step P s as`**: `P` holds of every state the run visits, the first and the last
  included.

`always_of_along` is the invariant rule: what each step that meets `C` keeps, every state of a run
of such steps has. `along_of_along` is the same for what the steps do.
-/

namespace Snare.Runs

variable {σ α : Type*} (step : σ → α → σ)

/-- Every action of the run `as` from `s` is taken from a state that meets `C`. -/
def Along (C : σ → α → Prop) : σ → List α → Prop
  | _, [] => True
  | s, a :: as => C s a ∧ Along C (step s a) as

def Always (P : σ → Prop) : σ → List α → Prop
  | s, [] => P s
  | s, a :: as => P s ∧ Always P (step s a) as

instance Along.decidable (C : σ → α → Prop) [∀ s a, Decidable (C s a)] :
    ∀ s as, Decidable (Along step C s as)
  | _, [] => .isTrue trivial
  | s, a :: as =>
    have := Along.decidable C (step s a) as
    inferInstanceAs (Decidable (C s a ∧ Along step C (step s a) as))

variable {step} {P I : σ → Prop} {s : σ} {as : List α}

theorem Always.head (h : Always step P s as) : P s := by
  cases as with
  | nil => exact h
  | cons a as => exact h.1

theorem Always.last (h : Always step P s as) : P (as.foldl step s) := by
  induction as generalizing s with
  | nil => exact h
  | cons a as ih => exact ih h.2

theorem Always.imp {Q : σ → Prop} (hPQ : ∀ s, P s → Q s)
    (h : Always step P s as) : Always step Q s as := by
  induction as generalizing s with
  | nil => exact hPQ s h
  | cons a as ih => exact ⟨hPQ s h.1, ih h.2⟩

theorem Always.and {Q : σ → Prop} (hP : Always step P s as)
    (hQ : Always step Q s as) : Always step (fun s => P s ∧ Q s) s as := by
  induction as generalizing s with
  | nil => exact ⟨hP, hQ⟩
  | cons a as ih => exact ⟨⟨hP.1, hQ.1⟩, ih hP.2 hQ.2⟩

theorem along_of_forall {C : α → Prop} (h : ∀ a ∈ as, C a) : Along step (fun _ a => C a) s as := by
  induction as generalizing s with
  | nil => trivial
  | cons a as ih =>
    exact ⟨h a List.mem_cons_self, ih fun a' ha' => h a' (List.mem_cons_of_mem a ha')⟩

variable {C : σ → α → Prop}

/-- **The invariant rule.** An invariant of the first state that every step meeting `C` keeps holds
of every state of a run whose steps all meet `C`. -/
theorem always_of_along
    (hstep : ∀ s a, I s → C s a → I (step s a)) (hs : I s) (h : Along step C s as) :
    Always step I s as := by
  induction as generalizing s with
  | nil => exact hs
  | cons a as ih => exact ⟨hs, ih (hstep s a hs h.1) h.2⟩

theorem along_of_along {D : σ → α → Prop}
    (hstep : ∀ s a, I s → C s a → I (step s a)) (hD : ∀ s a, I s → C s a → D s a) (hs : I s)
    (h : Along step C s as) : Along step D s as := by
  induction as generalizing s with
  | nil => trivial
  | cons a as ih => exact ⟨hD s a hs h.1, ih (hstep s a hs h.1) h.2⟩

section

variable (hstep : ∀ s a, I s → I (step s a))
include hstep

theorem always_of_step (hs : I s)
    (as : List α) : Always step I s as := by
  induction as generalizing s with
  | nil => exact hs
  | cons a as ih => exact ⟨hs, ih (hstep s a hs)⟩

theorem along_of_step (hC : ∀ s a, I s → C s a) (hs : I s) (as : List α) :
    Along step C s as := by
  induction as generalizing s with
  | nil => trivial
  | cons a as ih => exact ⟨hC s a hs, ih (hstep s a hs)⟩

theorem along_congr {D : σ → α → Prop} (hCD : ∀ s a, I s → (C s a ↔ D s a)) (hs : I s) :
    Along step C s as ↔ Along step D s as := by
  induction as generalizing s with
  | nil => exact Iff.rfl
  | cons a as ih => exact and_congr (hCD s a hs) (ih (hstep s a hs))

end

theorem Always.along
    (hC : ∀ s a, I (step s a) → C s a) (h : Always step I s as) : Along step C s as := by
  induction as generalizing s with
  | nil => trivial
  | cons a as ih => exact ⟨hC s a h.2.head, ih h.2⟩

/-! ## What a run puts out -/

def outputs {β : Type*} (step : σ → α → σ) (out : σ → α → Option β) : σ → List α → List β
  | _, [] => []
  | s, a :: as => (out s a).toList ++ outputs step out (step s a) as

/-- **Ordered outputs.** If each step raises a level of the state and puts out something between the
levels before and after, the outputs of a run never decrease. -/
theorem outputs_pairwise {β : Type*} [Preorder β] {out : σ → α → Option β} {level : σ → β}
    (hI : ∀ s a, I s → C s a → I (step s a))
    (hlevel : ∀ s a, I s → C s a → level s ≤ level (step s a))
    (hout : ∀ s a v, I s → C s a → out s a = some v → level s ≤ v ∧ v ≤ level (step s a))
    (hs : I s) (h : Along step C s as) :
    (outputs step out s as).Pairwise (· ≤ ·) ∧ ∀ v ∈ outputs step out s as, level s ≤ v := by
  induction as generalizing s with
  | nil => exact ⟨.nil, nofun⟩
  | cons a as ih =>
    obtain ⟨hpair, habove⟩ := ih (hI s a hs h.1) h.2
    simp only [outputs, List.pairwise_append, List.mem_append, Option.mem_toList]
    refine ⟨⟨by cases out s a <;> simp, hpair, fun v hv v' hv' => ?_⟩, fun v hv => ?_⟩
    · exact (hout s a v hs h.1 hv).2.trans (habove v' hv')
    · rcases hv with hv | hv
      · exact (hout s a v hs h.1 hv).1
      · exact (hlevel s a hs h.1).trans (habove v hv)

end Snare.Runs
