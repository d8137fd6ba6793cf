import Snare.Lib.Runs
import Snare.Lib.U64

/-!
# A sleep and its wake

A poll of a `Sleep` looks at the time, registers its waker and looks again. A look that finds the
clock at the wake time and the thread's `Instant` short of the deadline moves the wake time on and
drops the registration.

* **`State.Heeds`**: the readings of a poll whose second look may find `Instant` short: the clock
  holds wakes, and is short of the wake time when the poll registers;
* **`State.poll_heard`**: such a poll, if pending, has its waker registered, or woken in the poll;
* **`late_poll_unheard`**: a poll that registers for a time the clock has come to, and has neither.
-/

namespace Snare.Sleep

structure Timer where
  id : Nat
  at_ : Nat
  waker : Nat

/-- A `Sleep` and the time it is on. -/
structure State where
  at_ : Nat
  wake : Option (Nat × Nat) := none
  now : Nat
  timers : List Timer := []
  wakeId : Nat := 0
  /-- How often each waker has been woken. -/
  woken : Nat → Nat := fun _ => 0

/-- `sleep_until`, on a thread that reads `instant` where the clock reads `now`. -/
def sleepUntil (now instant deadline : Nat) : State where
  at_ := if instant ≤ deadline then satAdd now (deadline - instant) else now - (instant - deadline)
  now := now

/-- One `finished`: how far the clock moves before its first reading, its second and the drop of the
registration, and what the thread's `Instant` says. -/
structure Check where
  before : Nat := 0
  between : Nat := 0
  last : Nat := 0
  onMyClock : Bool := true
  /-- What is left to the deadline. -/
  rest : Nat := 0

structure Poll where
  waker : Nat
  first : Check := {}
  /-- How far the clock moves before the cancel and before the registration. -/
  before : Nat := 0
  between : Nat := 0
  /-- The clock runs as fast as possible and holds no wake. -/
  jumps : Bool := false
  second : Check := {}

namespace State

variable (s : State)

def move (d : Nat) : State :=
  if d = 0 then s
  else
    { s with
      now := s.now + d
      timers := s.timers.filter fun t => s.now + d < t.at_
      woken := fun w => s.woken w + s.timers.countP fun t => t.at_ ≤ s.now + d ∧ t.waker = w }

def cancel : State :=
  match s.wake with
  | none => s
  | some (id, _) => { s with wake := none, timers := s.timers.filter fun t => t.id ≠ id }

def finished (c : Check) : State × Bool :=
  let s := s.move c.before
  if s.now < s.at_ then (s, false)
  else if c.onMyClock ∧ c.rest ≠ 0 then
    let s := s.move c.between
    ({ (s.move c.last).cancel with at_ := satAdd s.now c.rest }, false)
  else ((s.move c.last).cancel, true)

/-- A clock that holds no wake is jumped to the wake time instead. -/
def register (waker : Nat) (jumps : Bool) : State :=
  if jumps then s.move (s.at_ - s.now)
  else
    { s with
      wake := some (s.wakeId, waker)
      timers := s.timers ++ [⟨s.wakeId, s.at_, waker⟩]
      wakeId := s.wakeId + 1 }

def arm (p : Poll) : State :=
  let s := s.move p.before
  if s.wake.any fun wake => wake.2 = p.waker then s
  else (s.cancel.move p.between).register p.waker p.jumps

def poll (p : Poll) : State × Bool :=
  match s.finished p.first with
  | (s, true) => (s, true)
  | (s, false) => (s.arm p).finished p.second

/-! ## What is registered -/

def timer : List Timer := (s.wake.map fun (id, waker) => ⟨id, s.at_, waker⟩).toList

/-- A wake that is kept is registered for the wake time, or the clock has delivered it. -/
def Inv : Prop := s.timers = s.timer ∨ s.timers = [] ∧ s.at_ ≤ s.now

def Idle : Prop := s.wake = none ∧ s.timers = []

variable {s}

@[simp] theorem move_at (d : Nat) : (s.move d).at_ = s.at_ := by
  unfold move
  split <;> rfl

@[simp] theorem move_wake (d : Nat) : (s.move d).wake = s.wake := by
  unfold move
  split <;> rfl

@[simp] theorem move_now (d : Nat) : (s.move d).now = s.now + d := by
  unfold move
  split <;> simp [*]

theorem woken_le_move (d w : Nat) : s.woken w ≤ (s.move d).woken w := by
  unfold move
  split
  · exact Nat.le_refl _
  · exact Nat.le_add_right _ _

theorem Idle.inv (h : s.Idle) : s.Inv := by
  refine .inl ?_
  rw [h.2, timer, h.1]
  rfl

theorem Idle.move (h : s.Idle) (d : Nat) : (s.move d).Idle := by
  refine ⟨(move_wake d).trans h.1, ?_⟩
  unfold State.move
  split <;> simp [h.2]

theorem Inv.move (h : s.Inv) (d : Nat) : (s.move d).Inv := by
  unfold Inv timer at *
  by_cases hd : d = 0
  · simpa [State.move, hd] using h
  · simp only [State.move, if_neg hd]
    rcases h with h | ⟨h, hle⟩
    · by_cases hdue : s.now + d < s.at_ <;> cases hwake : s.wake <;> simp [h, hwake, hdue]
      omega
    · exact .inr ⟨by simp [h], by omega⟩

theorem Inv.cancel (h : s.Inv) : s.cancel.Idle := by
  unfold Inv timer at h
  unfold State.cancel Idle
  cases hwake : s.wake <;> rcases h with h | ⟨h, -⟩ <;> simp [h, hwake]

@[simp] theorem cancel_at : s.cancel.at_ = s.at_ := by
  unfold cancel
  split <;> rfl

@[simp] theorem cancel_now : s.cancel.now = s.now := by
  unfold cancel
  split <;> rfl

@[simp] theorem cancel_woken : s.cancel.woken = s.woken := by
  unfold cancel
  split <;> rfl

end State

/-- The look finds the clock at the wake time, and `Instant` short of the deadline. -/
def Check.Short (c : Check) (s : State) : Prop :=
  s.at_ ≤ s.now + c.before ∧ c.onMyClock ∧ c.rest ≠ 0

namespace State

variable {s : State}

/-- How a look ends: the wake time is ahead, is moved on, or the sleep is over. -/
inductive Looked (s : State) (c : Check) : State × Bool → Prop
  | ahead (h : s.now + c.before < s.at_) : Looked s c (s.move c.before, false)
  | moved {s' : State} (hshort : c.Short s) (hidle : s'.Idle)
      (hwoken : ∀ w, (s.move c.before).woken w ≤ s'.woken w) : Looked s c (s', false)
  | ended {s' : State} (hrest : c.onMyClock → c.rest = 0) (hidle : s'.Idle)
    (hle : s'.at_ ≤ s'.now) :
      Looked s c (s', true)

theorem finished_looked (h : s.Inv) (c : Check) : Looked s c (s.finished c) := by
  simp only [finished, move_now, move_at]
  split
  · exact .ahead ‹_›
  · split <;> rename_i hahead hrest
    · refine .moved ⟨by omega, hrest⟩ (((h.move _).move _).move _).cancel fun w => ?_
      rw [cancel_woken]
      exact (woken_le_move _ w).trans (woken_le_move _ w)
    · exact .ended (by simpa using hrest) ((h.move _).move _).cancel (by simp; omega)

theorem Looked.inv {c : Check} {r : State × Bool} (h : Looked s c r) (hs : s.Inv) : r.1.Inv := by
  cases h with
  | ahead => exact hs.move _
  | moved _ hidle _ => exact hidle.inv
  | ended _ hidle _ => exact hidle.inv

theorem Looked.woken {c : Check} {s' : State} (h : Looked s c (s', false)) (w : Nat) :
    s.woken w ≤ s'.woken w := by
  cases h with
  | ahead => exact woken_le_move _ w
  | moved _ _ hwoken => exact (woken_le_move _ w).trans (hwoken w)

theorem arm_spec (h : s.Inv) (p : Poll) : (s.arm p).Inv ∧ (∀ w, s.woken w ≤ (s.arm p).woken w)
    ∧ ((∃ id, (s.arm p).wake = some (id, p.waker)) ∨ (s.arm p).at_ ≤ (s.arm p).now) := by
  unfold arm
  dsimp only
  split
  · rename_i hsame
    obtain ⟨⟨id, waker⟩, hwake, hwaker⟩ := (Option.any_eq_true _ _).mp hsame
    obtain rfl : waker = p.waker := of_decide_eq_true hwaker
    exact ⟨h.move _, woken_le_move _, .inl ⟨id, hwake⟩⟩
  · have hidle := (h.move p.before).cancel.move p.between
    have hwoken : ∀ w, s.woken w ≤ ((s.move p.before).cancel.move p.between).woken w := fun w =>
      (woken_le_move _ w).trans (cancel_woken (s := s.move p.before) ▸ woken_le_move _ w)
    unfold register
    split
    · refine ⟨hidle.inv.move _, fun w => (hwoken w).trans (woken_le_move _ w), .inr ?_⟩
      rw [move_at, move_now]
      omega
    · refine ⟨.inl ?_, hwoken, .inl ⟨_, rfl⟩⟩
      simp [hidle.2, timer]

theorem move_wakes (h : s.Inv) {id w d : Nat} (hwake : s.wake = some (id, w)) (hlt : s.now < s.at_)
    (hle : s.at_ ≤ s.now + d) : s.woken w < (s.move d).woken w := by
  have htimers : s.timers = [⟨id, s.at_, w⟩] := by
    rcases h with h | ⟨-, hpast⟩
    · simpa [timer, hwake] using h
    · omega
  have hd : d ≠ 0 := by omega
  simp [State.move, hd, htimers, hle]

end State

/-! ## Runs -/

/-- The wake time after a pending first look, which moves it on where the clock has come to it. -/
def Poll.wakeAt (p : Poll) (s : State) : Nat :=
  if s.now + p.first.before < s.at_ then s.at_
  else satAdd (s.now + p.first.before + p.first.between) p.first.rest

/-- The clock's reading when the poll registers. -/
def Poll.armed (p : Poll) (s : State) : Nat :=
  (if s.now + p.first.before < s.at_ then s.now + p.first.before
    else s.now + p.first.before + p.first.between + p.first.last) + p.before + p.between

inductive Act where
  | poll (p : Poll)
  | move (d : Nat)
  | drop

namespace State

def step (s : State) : Act → State
  | .poll p => (s.poll p).1
  | .move d => s.move d
  | .drop => s.cancel

/-- Where `Instant` is short of the deadline at the second look, the clock holds wakes, and it reads
less than the wake time when the poll registers. -/
def Heeds (s : State) : Act → Prop
  | .poll p => p.second.onMyClock → p.second.rest ≠ 0 → p.jumps = false ∧ p.armed s < p.wakeAt s
  | _ => True

def decides (s : State) (p : Poll) : Check := if (s.finished p.first).2 then p.first else p.second

/-- What a poll promises: a wake while it is pending, and to be ready in time. -/
def Promise (s : State) (p : Poll) : Prop :=
  match s.poll p with
  | (s', false) => (∃ id, s'.wake = some (id, p.waker) ∧ s'.timers = [⟨id, s'.at_, p.waker⟩])
    ∨ s.woken p.waker < s'.woken p.waker
  | (s', true) => s'.at_ ≤ s'.now ∧ ((s.decides p).onMyClock → (s.decides p).rest = 0)
    ∧ s'.timers = []

variable {s : State}

theorem finished_pending {p : Poll} {s₁ : State} (h : s.finished p.first = (s₁, false)) :
    s₁.at_ = p.wakeAt s ∧ s₁.now + p.before + p.between = p.armed s := by
  simp only [finished, move_now, move_at] at h
  unfold Poll.wakeAt Poll.armed
  split at h
  · cases h
    simp [*]
  · split at h <;> cases h
    simp [*]

/-- On a clock that holds wakes a poll goes no further than to where it registers. -/
theorem arm_now {p : Poll} (hjumps : p.jumps = false) :
    (s.arm p).at_ = s.at_ ∧ (s.arm p).now ≤ s.now + p.before + p.between := by
  unfold arm register
  dsimp only
  rw [hjumps]
  split
  · simp
  · simp

/-- A poll keeps its promise. -/
theorem poll_heard (h : s.Inv) {p : Poll} (hheeds : s.Heeds (.poll p)) :
    (s.poll p).1.Inv ∧ s.Promise p := by
  have hfirst := finished_looked h p.first
  simp only [Promise, poll, decides]
  generalize hr : s.finished p.first = r at *
  obtain ⟨s₁, _ | _⟩ := r
  case true => cases hfirst with | ended hrest hidle hle => exact ⟨hidle.inv, hle, hrest, hidle.2⟩
  have hinv : s₁.Inv := hfirst.inv h
  obtain ⟨harm, hmono, hreg⟩ := arm_spec hinv p
  have hsecond := finished_looked harm p.second
  dsimp only
  generalize (s₁.arm p).finished p.second = r at *
  refine ⟨hsecond.inv harm, ?_⟩
  cases hsecond with
  | ended hrest hidle hle => exact ⟨hle, hrest, hidle.2⟩
  | ahead hahead =>
    rcases hreg with ⟨id, hwake⟩ | hpast
    · refine .inl ⟨id, (move_wake _).trans hwake, ?_⟩
      rcases harm.move p.second.before with htimers | ⟨-, hpast⟩
      · simpa [timer, hwake] using htimers
      · simp at hpast
        omega
    · omega
  | moved hshort _ hlate =>
    -- the clock has come to a wake that was ahead of it
    obtain ⟨hjumps, hahead⟩ := hheeds hshort.2.1 hshort.2.2
    obtain ⟨hat, hnow⟩ := finished_pending hr
    obtain ⟨hat', hnow'⟩ := arm_now (s := s₁) hjumps
    have hlt : (s₁.arm p).now < (s₁.arm p).at_ := by omega
    rcases hreg with ⟨id, hwake⟩ | hpast
    · have hwoken := move_wakes harm hwake hlt hshort.1
      exact .inr ((((hfirst.woken _).trans (hmono _)).trans_lt hwoken).trans_le (hlate _))
    · omega

/-- What holds of a step: a poll keeps its promise, and a drop leaves no wake. -/
def Kept (s : State) : Act → Prop
  | .poll p => s.Promise p
  | .move _ => True
  | .drop => (s.step .drop).timers = []

theorem Inv.step (h : s.Inv) (a : Act) (ha : s.Heeds a) : (s.step a).Inv ∧ s.Kept a := by
  cases a with
  | poll p => exact poll_heard h ha
  | move d => exact ⟨h.move d, trivial⟩
  | drop => exact ⟨h.cancel.inv, h.cancel.2⟩

theorem Inv.one (h : s.Inv) : s.timers.length ≤ 1 := by
  rcases h with h | ⟨h, -⟩
  · cases hwake : s.wake <;> simp [h, timer, hwake]
  · simp [h]

end State

/-- **A pending sleep is registered**, along every run in which a poll whose second look finds
`Instant` short registers while the clock is short of the wake time. -/
theorem sleep_registered (now instant deadline : Nat) (acts : List Act)
    (h : Runs.Along State.step State.Heeds (sleepUntil now instant deadline) acts) :
    Runs.Along State.step State.Kept (sleepUntil now instant deadline) acts
      ∧ Runs.Always State.step (fun s => s.timers.length ≤ 1) (sleepUntil now instant deadline)
        acts := by
  have hinit : (sleepUntil now instant deadline).Inv := .inl rfl
  have hstep : ∀ (s : State) a, s.Inv → s.Heeds a → (s.step a).Inv := fun s a hs ha =>
    (hs.step a ha).1
  exact ⟨Runs.along_of_along hstep (fun s a hs ha => (hs.step a ha).2) hinit h,
    (Runs.always_of_along hstep hinit h).imp fun s hs => hs.one⟩

/-- The clock comes to the wake time between the registration and the second look of the second
poll, where `Instant` is 2 short; the third poll registers for the rest, with another waker. -/
def naps : List Act :=
  [.poll { waker := 1, first := { rest := 10 }, second := { rest := 10 } }, .move 3,
    .poll { waker := 1, first := { rest := 7 }, before := 2, second := { before := 6, rest := 2 } },
    .poll { waker := 2, first := { rest := 2 }, between := 1, second := { rest := 1 } }, .move 1,
    .poll { waker := 2 }]

theorem sleep_registered_naps : Runs.Along State.step State.Kept (sleepUntil 0 0 10) naps ∧
    (naps.foldl State.step (sleepUntil 0 0 10)).woken 1 = 1 ∧
    (naps.foldl State.step (sleepUntil 0 0 10)).woken 2 = 1 := by
  refine ⟨(sleep_registered 0 0 10 naps ?_).1, by decide, by decide⟩
  exact ⟨fun _ _ => ⟨rfl, by decide⟩, trivial, fun _ _ => ⟨rfl, by decide⟩,
    fun _ _ => ⟨rfl, by decide⟩, trivial, fun _ h => absurd rfl h, trivial⟩

/-- The clock comes to the wake time after the first look and before the registration, and `Instant`
is short there: the second look drops the wake, which nothing has delivered. -/
theorem late_poll_unheard : ¬(sleepUntil 0 0 10).Promise
    { waker := 1, first := { rest := 10 }, between := 10, second := { rest := 1 } } := by
  rintro (⟨id, hwake, -⟩ | hwoken)
  · exact nomatch hwake
  · exact absurd hwoken (by decide)

end Snare.Sleep
