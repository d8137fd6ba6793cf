import Snare.Time.Monotone

/-!
# Discrete time skips move time

A dispatcher that finds every thread blocked asks the clock to skip, and asks again for as long as
the clock reports that it moved. `Skipped` says what a skip that reports movement has done:

* **the table of one instant** — `get?_takeWakers` and `get?_takeUpto` read the two passes over a
  table as lookups: what stands at an instant afterwards depends on what stood there before alone;
* **where it lands** — just past the least deadline the reading has not reached (`Skipped.least`);
* **what it leaves** — waits and events at the deadline it passed stay until their owners take them,
  and nothing else below the new reading does (`Advanced`).

With the reading at `u64Max` there is nothing to move to, but `take_upto` cannot prune a deadline
there and the skip reports movement for ever.
-/

namespace Snare.Time

open List SortedMap

/-! ## What a pass leaves at an instant -/

variable (hold : Bool)

def Entry.drained (e : Entry) : Entry :=
  { e with wakers := []
           awaiting := if hold then e.awaiting ++ e.wakers.map Prod.fst else e.awaiting }

def Entry.taken (e : Entry) : Option Entry :=
  if (e.drained hold).isEmpty then none else some (e.drained hold)

theorem Entry.drained_drained (e : Entry) : (e.drained hold).drained hold = e.drained hold := by
  cases hold <;> simp [Entry.drained]

theorem Entry.taken_taken (e : Entry) : (e.taken hold).bind (Entry.taken hold) = e.taken hold := by
  cases hempty : (e.drained hold).isEmpty with
  | true => simp [Entry.taken, hempty]
  | false => simp [Entry.taken, hempty, Entry.drained_drained]

theorem Entry.taken_eq_none {e : Entry} (hw : e.waits = 0) (he : e.events = 0)
    (ha : e.awaiting = []) : e.taken false = none := by
  simp [Entry.taken, Entry.drained, Entry.isEmpty, hw, he, ha]

theorem get?_takeAt (acc : Timers × List Nat) (at_ d : Nat) :
    (Timers.takeAt hold acc at_).1.entries.get? d =
      if d = at_ then (acc.1.entries.get? d).bind (Entry.taken hold) else acc.1.entries.get? d := by
  unfold Timers.takeAt Timers.takeWakersAt
  cases he : acc.1.entries.get? at_ with
  | none =>
    simp only [Option.map_none]
    split
    · next hd => rw [hd, he, Option.bind_none]
    · rfl
  | some e =>
    simp only [Option.map_some, Timers.dropEmpty, get?_alter, get?_insert,
      if_true]
    split
    · next hd =>
      rw [hd, he, Option.bind_some, Entry.taken]
      cases hempty : (e.drained hold).isEmpty <;>
        simp_all [Entry.drained, Option.filter]
    · rfl

theorem get?_foldl_takeAt (due : List Nat) (acc : Timers × List Nat) (d : Nat) :
    (due.foldl (Timers.takeAt hold) acc).1.entries.get? d =
      if d ∈ due then (acc.1.entries.get? d).bind (Entry.taken hold) else acc.1.entries.get? d := by
  induction due generalizing acc with
  | nil => rfl
  | cons at_ due ih =>
    rw [foldl_cons, ih, get?_takeAt]
    by_cases hd : d = at_
    · -- a second visit finds no waker left to take
      have hbind : ((acc.1.entries.get? d).bind (Entry.taken hold)).bind (Entry.taken hold) =
          (acc.1.entries.get? d).bind (Entry.taken hold) := by
        cases acc.1.entries.get? d with
        | none => rfl
        | some e => exact e.taken_taken hold
      simp only [hd, if_true, mem_cons, true_or]
      rw [hd] at hbind
      split
      · exact hbind
      · rfl
    · simp only [hd, if_false, mem_cons, false_or]

theorem get?_takeWakers (t : Timers) (hold : Bool) (upto d : Nat) :
    (t.takeWakers hold upto).1.entries.get? d = (t.entries.get? d).bind fun e =>
      if d ≤ upto ∧ e.wakers ≠ [] then e.taken hold else some e := by
  unfold Timers.takeWakers
  rw [get?_foldl_takeAt]
  cases he : t.entries.get? d with
  | none => split <;> rfl
  | some e =>
    have hmem : d ∈ (t.entries.entries.filter fun e =>
        e.1 ≤ upto && !e.2.wakers.isEmpty).map Prod.fst ↔ d ≤ upto ∧ e.wakers ≠ [] := by
      constructor
      · intro h
        obtain ⟨⟨d', e'⟩, hin, rfl⟩ := mem_map.mp h
        obtain ⟨hin, hp⟩ := mem_filter.mp hin
        obtain rfl : e' = e := Option.some.inj ((get?_eq_some_iff.mpr hin).symm.trans he)
        simpa using hp
      · rintro ⟨hle, hne⟩
        exact mem_map.mpr ⟨(d, e), mem_filter.mpr
          ⟨get?_eq_some_iff.mp he, by simp [hle, hne]⟩, rfl⟩
    simp only [hmem, Option.bind_some]

theorem get?_takeUpto (t : Timers) (upto d : Nat) :
    (takeUpto t upto).1.entries.get? d =
      (t.entries.get? d).filter fun _ => decide (satAdd upto 1 ≤ d) :=
  get?_retain _ _ _

variable {t : Timers} {upto d : Nat}

theorem get?_takeUpto_eq_some {e : Entry} : (takeUpto t upto).1.entries.get? d = some e ↔
      t.entries.get? d = some e ∧ satAdd upto 1 ≤ d := by
  rw [get?_takeUpto, Option.filter_eq_some_iff, decide_eq_true_eq]

theorem mem_keys_of_takeWakers {hold : Bool}
    (h : d ∈ (t.takeWakers hold upto).1.entries.keys) : d ∈ t.entries.keys := by
  obtain ⟨e, he⟩ := mem_keys_iff.mp h
  rw [get?_takeWakers] at he
  obtain ⟨e', he', -⟩ := Option.bind_eq_some_iff.mp he
  exact mem_keys_iff.mpr ⟨e', he'⟩

theorem mem_keys_takeUpto :
    d ∈ (takeUpto t upto).1.entries.keys ↔ d ∈ t.entries.keys ∧ satAdd upto 1 ≤ d := by
  simp only [mem_keys_iff, get?_takeUpto_eq_some, exists_and_right]

/-- The earliest deadline of a table, as `first_key_value` finds it. -/
def Timers.first (t : Timers) : Option Nat := t.entries.entries.head?.map Prod.fst

theorem Timers.mem_of_first {next : Nat} (h : t.first = some next) : next ∈ t.entries.keys := by
  obtain ⟨e, he, rfl⟩ := Option.map_eq_some_iff.mp h
  exact mem_map_of_mem (mem_of_mem_head? he)

theorem Timers.first_le (hd : d ∈ t.entries.keys) : ∃ next, t.first = some next ∧ next ≤ d := by
  obtain ⟨e', he', rfl⟩ := mem_map.mp hd
  cases hfirst : t.entries.entries.head? with
  | none => rw [head?_eq_none_iff.mp hfirst] at he'; nomatch he'
  | some e => exact ⟨e.1, by rw [Timers.first, hfirst]; rfl, head?_least hfirst he'⟩

namespace Clock

/-! ## What a skip that reports movement has done -/

/-- One skip as a dispatcher asks for it: over any thread's timers or the participants' alone, with
its samples of the real clock and the children found gone. -/
structure Skip where
  any : Bool
  real : Nat
  real' : Nat
  gone : Nat

def skip (c : Clock) (k : Skip) : Clock × Bool × List Nat :=
  if k.any then c.advanceToNextAnyDeadline k.real k.real' k.gone
  else c.skipToNextDeadline k.real k.real' k.gone

def deadlines (c : Clock) (any : Bool) : List Nat :=
  c.pending.entries.keys ++ if any then c.foreign.entries.keys else []

/-- A skip has moved the clock from `c` to `c'` past the deadline `next`. -/
structure Skipped (any : Bool) (c c' : Clock) (next : Nat) : Prop where
  mem : next ∈ c.deadlines any
  ahead : satAdd c.heldValue 1 ≤ next
  least : ∀ d ∈ c.deadlines any, satAdd c.heldValue 1 ≤ d → next ≤ d
  line : (c'.driven, c'.paused, c'.rateQ32, c'.floor) = (c.driven, c.paused, c.rateQ32, c.floor)
  mono : c'.monotonicNanos = max c.monotonicNanos (creepPast next)
  pending : c'.pending = ((takeUpto c.pending c.heldValue).1.takeWakers (!c.deterministic)
    (creepPast next)).1
  foreign : c'.foreign = ((if any then (takeUpto c.foreign c.heldValue).1 else c.foreign).takeWakers
    false (creepPast next)).1

variable {c : Clock}

theorem skipToNextDeadline_skipped {real real' gone : Nat} {out : Clock × Bool × List Nat}
    (hl : c.onLine = false) (hout : c.skipToNextDeadline real real' gone = out)
    (hmoved : out.2.1 = true) : ∃ next, Skipped false c out.1 next := by
  unfold skipToNextDeadline at hout
  rw [peek_of_held hl, value_of_held hl] at hout
  simp only at hout
  split at hout
  · subst hout; nomatch hmoved
  · split at hout
    · subst hout; nomatch hmoved
    · rename_i next entry hfirst
      split at hout
      · subst hout; nomatch hmoved
      · subst hout
        have hfirst' : (takeUpto c.pending c.heldValue).1.first = some next :=
          congrArg (Option.map Prod.fst) hfirst
        obtain ⟨hmem, hahead⟩ := mem_keys_takeUpto.mp (Timers.mem_of_first hfirst')
        refine ⟨next, by simpa [deadlines] using hmem, hahead,
          fun d hd hd' => ?_, rfl, rfl, rfl, rfl⟩
        have hd : d ∈ c.pending.entries.keys := by simpa [deadlines] using hd
        obtain ⟨x, hx, hle⟩ := Timers.first_le (mem_keys_takeUpto.mpr ⟨hd, hd'⟩)
        exact (Option.some.inj (hfirst'.symm.trans hx)).trans_le hle

theorem least_of_firsts {a b : Option Nat} {next : Nat}
    (h : (match a, b with | some a, some b => some (min a b) | a, b => a.or b) = some next) :
    (a = some next ∨ b = some next) ∧ (∀ x, a = some x → next ≤ x) ∧
      ∀ x, b = some x → next ≤ x := by
  cases a with
  | none =>
    cases b with
    | none => nomatch h
    | some b => exact ⟨.inr h, nofun, fun x hx => (Option.some.inj (h.symm.trans hx)).le⟩
  | some a =>
    cases b with
    | none => exact ⟨.inl h, fun x hx => (Option.some.inj (h.symm.trans hx)).le, nofun⟩
    | some b =>
      obtain rfl : min a b = next := Option.some.inj h
      refine ⟨?_, fun x hx => ?_, fun x hx => ?_⟩
      · rcases Nat.le_total a b with hle | hle
        · exact .inl (by rw [Nat.min_eq_left hle])
        · exact .inr (by rw [Nat.min_eq_right hle])
      · exact (Nat.min_le_left a b).trans_eq (Option.some.inj hx)
      · exact (Nat.min_le_right a b).trans_eq (Option.some.inj hx)

theorem advanceToNextAnyDeadline_skipped {real real' gone : Nat}
    {out : Clock × Bool × List Nat} (hl : c.onLine = false)
    (hout : c.advanceToNextAnyDeadline real real' gone = out) (hmoved : out.2.1 = true) :
    ∃ next, Skipped true c out.1 next := by
  unfold advanceToNextAnyDeadline at hout
  rw [peek_of_held hl, value_of_held hl] at hout
  simp only at hout
  split at hout
  · subst hout; nomatch hmoved
  · split at hout
    · subst hout; nomatch hmoved
    · split at hout
      · subst hout; nomatch hmoved
      · rename_i next hnext
        split at hout
        · subst hout; nomatch hmoved
        · subst hout
          obtain ⟨hmem, hp, hf⟩ := least_of_firsts hnext
          have hkeys : ∀ t : Timers, (takeUpto t c.heldValue).1.first = some next →
              next ∈ t.entries.keys ∧ satAdd c.heldValue 1 ≤ next :=
            fun t ht => mem_keys_takeUpto.mp (Timers.mem_of_first ht)
          have hboth : next ∈ c.deadlines true ∧ satAdd c.heldValue 1 ≤ next := by
            rcases hmem with hmem | hmem
            · exact ⟨mem_append_left _ (hkeys _ hmem).1, (hkeys _ hmem).2⟩
            · exact ⟨mem_append_right _ (hkeys _ hmem).1, (hkeys _ hmem).2⟩
          refine ⟨next, hboth.1, hboth.2, fun d hd hd' => ?_, rfl, rfl, rfl, rfl⟩
          rcases mem_append.mp hd with hd | hd
          · obtain ⟨x, hx, hle⟩ := Timers.first_le (mem_keys_takeUpto.mpr ⟨hd, hd'⟩)
            exact (hp x hx).trans hle
          · obtain ⟨x, hx, hle⟩ := Timers.first_le (mem_keys_takeUpto.mpr ⟨hd, hd'⟩)
            exact (hf x hx).trans hle

theorem skip_skipped {k : Skip} (hl : c.onLine = false)
    (h : (c.skip k).2.1 = true) : ∃ next, Skipped k.any c (c.skip k).1 next := by
  unfold skip at h ⊢
  cases hany : k.any with
  | true => exact advanceToNextAnyDeadline_skipped hl rfl (by rwa [hany] at h)
  | false => exact skipToNextDeadline_skipped hl rfl (by rwa [hany] at h)

theorem skip_held (hl : c.onLine = false) (k : Skip) :
    (c.skip k).1.onLine = false ∧ c.heldValue ≤ (c.skip k).1.heldValue := by
  have hcore : ∃ m, c.monotonicNanos ≤ m ∧
      (c.skip k).1.core = { c with monotonicNanos := m }.core := by
    have hskip : ∀ c' : Clock, c'.core = (c.peek k.real).1.core ∨ (∃ next, c'.core =
        { (c.peek k.real).1 with
          monotonicNanos := max (c.peek k.real).1.monotonicNanos (creepPast next) }.core) →
        ∃ m, c.monotonicNanos ≤ m ∧ c'.core = { c with monotonicNanos := m }.core := by
      rw [peek_of_held hl]
      rintro c' (h | ⟨next, h⟩)
      · exact ⟨_, le_refl _, h⟩
      · exact ⟨_, Nat.le_max_left _ _, h⟩
    unfold skip
    split
    · rcases c.advanceToNextAnyDeadline_core k.real k.real' k.gone with h | ⟨-, h⟩
      · exact ⟨_, le_refl _, h⟩
      · exact hskip _ h
    · exact hskip _ (c.skipToNextDeadline_core k.real k.real' k.gone)
  obtain ⟨m, hm, hcore⟩ := hcore
  simp only [core, line, Prod.mk.injEq, Line.mk.injEq] at hcore
  obtain ⟨⟨hmono, -, hrate, -⟩, hfloor, hdriven, hpaused, -⟩ := hcore
  constructor
  · rw [← hl]
    simp only [onLine, isScaled, hrate, hdriven, hpaused]
  · simp only [heldValue, hmono, hfloor]
    omega

/-! ## Time advances -/

/-- The deadline a skip is to pass: the least one the reading has not reached. -/
def Earliest (any : Bool) (c : Clock) (next : Nat) : Prop :=
  next ∈ c.deadlines any ∧ c.heldValue < next ∧ ∀ d ∈ c.deadlines any, c.heldValue < d → next ≤ d

def OnlyWakers (e : Entry) : Prop :=
  e.waits = 0 ∧ e.events = 0 ∧ e.awaiting = [] ∧ e.wakers ≠ []

/-- A skip past `next` takes everything below where it lands: the participants have wakers alone at
`next`, which a deterministic sim does not hold, and the other threads up to it, but for those that
a skip over any thread's timers prunes. -/
def TakesAll (any : Bool) (c : Clock) (next : Nat) : Prop :=
  (∀ e, c.pending.entries.get? next = some e → c.deterministic = true ∧ OnlyWakers e) ∧
    ∀ d e, c.foreign.entries.get? d = some e → d ≤ next →
      any = true ∧ d ≤ c.heldValue ∨ OnlyWakers e

/-- **What a skip that reports movement does.** -/
structure Advanced (any : Bool) (c c' : Clock) : Prop where
  rises : c.heldValue < c'.heldValue
  lands : ∃ next, c.Earliest any next ∧ c'.heldValue = creepPast next ∧
    (∀ d ∈ c'.deadlines any, c'.heldValue ≤ d ∨ d = next) ∧
    (c.TakesAll any next → ∀ d ∈ c'.deadlines true, c'.heldValue ≤ d)

namespace Skipped

variable {any : Bool} {c c' : Clock} {next : Nat}

theorem earliest (h : Skipped any c c' next) (htop : c.heldValue < u64Max) :
    c.Earliest any next := by
  have hnext : satAdd c.heldValue 1 = c.heldValue + 1 := by simp only [satAdd]; omega
  refine ⟨h.mem, ?_, fun d hd hlt => h.least d hd (by omega)⟩
  have := h.ahead
  omega

theorem heldValue_eq (h : Skipped any c c' next) (htop : c.heldValue < u64Max) :
    c'.heldValue = creepPast next := by
  have hahead := (h.earliest htop).2.1
  have hfloor : c'.floor = c.floor := by
    have := h.line
    simp only [Prod.mk.injEq] at this
    exact this.2.2.2
  rw [heldValue, h.mono, hfloor]
  simp only [heldValue, creepPast, satAdd] at hahead htop ⊢
  omega

variable {d : Nat}

theorem left (h : Skipped any c c' next) (hd : d ∈ c'.deadlines any) :
    creepPast next ≤ d ∨ d = next := by
  have hkept : ∀ {t : Timers} {hold : Bool}, (∀ d ∈ t.entries.keys, d ∈ c.deadlines any) →
      d ∈ ((takeUpto t c.heldValue).1.takeWakers hold (creepPast next)).1.entries.keys →
      next ≤ d := by
    intro t hold ht hd
    obtain ⟨hd, hlt⟩ := mem_keys_takeUpto.mp (mem_keys_of_takeWakers hd)
    exact h.least d (ht d hd) hlt
  have hle : next ≤ d := by
    rcases mem_append.mp hd with hd | hd
    · rw [h.pending] at hd
      exact hkept (fun d hd => mem_append_left _ hd) hd
    · rw [h.foreign] at hd
      cases any with
      | true => exact hkept (fun d hd => mem_append_right _ hd) hd
      | false => nomatch hd
  simp only [creepPast, satAdd]
  omega

theorem not_onlyWakers_of_left {t : Timers} {upto : Nat} {e : Entry}
    (hd : d ∈ (t.takeWakers false upto).1.entries.keys) (hle : d ≤ upto)
    (he : t.entries.get? d = some e) : ¬ OnlyWakers e := by
  rintro ⟨hwaits, hevents, hawaiting, hwakers⟩
  obtain ⟨e', he'⟩ := mem_keys_iff.mp hd
  rw [get?_takeWakers, he, Option.bind_some, if_pos ⟨hle, hwakers⟩,
    Entry.taken_eq_none hwaits hevents hawaiting] at he'
  nomatch he'

theorem left_of_takesAll (h : Skipped any c c' next) (htop : c.heldValue < u64Max)
    (hall : c.TakesAll any next) (hd : d ∈ c'.deadlines true) : creepPast next ≤ d := by
  by_contra hbelow
  have hcreep : creepPast next ≤ next + 1 := Nat.min_le_left _ _
  have hdle : d ≤ creepPast next := by omega
  rcases mem_append.mp hd with hd | hd
  · -- the participants' deadline left below is the one passed, and its wakers were taken
    obtain rfl : d = next :=
      (h.left (mem_append_left _ hd)).resolve_left hbelow
    rw [h.pending] at hd
    obtain ⟨e, he⟩ := mem_keys_iff.mp (mem_keys_of_takeWakers hd)
    obtain ⟨hdet, honly⟩ := hall.1 e (get?_takeUpto_eq_some.mp he).1
    rw [hdet] at hd
    exact not_onlyWakers_of_left hd hdle he honly
  · rw [if_pos rfl, h.foreign] at hd
    obtain ⟨e, he⟩ := mem_keys_iff.mp (mem_keys_of_takeWakers hd)
    have hold : c.foreign.entries.get? d = some e ∧ (any = true → c.heldValue < d) := by
      cases any with
      | true =>
        obtain ⟨he, hlt⟩ := get?_takeUpto_eq_some.mp he
        refine ⟨he, fun _ => ?_⟩
        simp only [satAdd] at hlt
        omega
      | false => exact ⟨he, by simp⟩
    rcases hall.2 d e hold.1 (by omega) with ⟨hany, hpast⟩ | honly
    · exact absurd (hold.2 hany) (by omega)
    · exact not_onlyWakers_of_left hd hdle he honly

theorem advanced (h : Skipped any c c' next) (htop : c.heldValue < u64Max) : Advanced any c c' := by
  have hheld := h.heldValue_eq htop
  have hearliest := h.earliest htop
  refine ⟨?_, next, hearliest, hheld, fun d hd => ?_, fun hall d hd => ?_⟩
  · have hahead := hearliest.2.1
    rw [hheld]
    simp only [creepPast, satAdd]
    omega
  · exact hheld ▸ h.left hd
  · exact hheld ▸ h.left_of_takesAll htop hall hd

end Skipped

def moves : Clock → List Skip → Nat
  | _, [] => 0
  | c, k :: ks => (if (c.skip k).2.1 then 1 else 0) + moves (c.skip k).1 ks

/-- **Skips move time.** From any held clock, in a run of skips that each start below the top of the
range, every skip that reports movement lands just past the earliest deadline ahead and leaves
nothing else below; so the reading is up by at least their number. -/
theorem skips_move_time (c : Clock) (ks : List Skip) (hl : c.onLine = false)
    (htop : Runs.Along (fun c k => (c.skip k).1) (fun c _ => c.heldValue < u64Max) c ks) :
    Runs.Along (fun c k => (c.skip k).1)
        (fun c k => (c.skip k).2.1 = true → Advanced k.any c (c.skip k).1) c ks ∧
      c.heldValue + c.moves ks ≤ (ks.foldl (fun c k => (c.skip k).1) c).heldValue := by
  induction ks generalizing c with
  | nil => exact ⟨trivial, le_refl _⟩
  | cons k ks ih =>
    obtain ⟨hlt, htop⟩ := htop
    obtain ⟨hl', hle⟩ := skip_held hl k
    obtain ⟨halong, hmoves⟩ := ih (c.skip k).1 hl' htop
    have hadv : (c.skip k).2.1 = true → Advanced k.any c (c.skip k).1 := fun h =>
      (skip_skipped hl h).elim fun _ hs => hs.advanced hlt
    refine ⟨⟨hadv, halong⟩, ?_⟩
    rw [moves, foldl_cons]
    split
    · next hmoved =>
      have := (hadv hmoved).rises
      omega
    · omega

/-- A clock on which only an event that never comes is registered. -/
def idleForEver : Clock := ((Clock.begin true true 0 0).registerTimer 0 u64Max false true 0).1

def sleeper : Clock := ((Clock.begin true true 0 0).registerTimer 0 10 false false 0).1

/-- One skip carries the sleeper's clock past its deadline. -/
theorem skips_move_time_sleeper : Advanced false sleeper (sleeper.skip ⟨false, 0, 0, 0⟩).1 :=
  (skips_move_time sleeper [⟨false, 0, 0, 0⟩] (by decide +kernel) (by decide +kernel)).1.1
    (by decide +kernel)

/-- At the top of the range a skip reports movement and changes nothing, as often as it is asked;
and below it, a wait stays registered at the deadline that was passed. -/
theorem skip_without_moving :
    let k : Skip := ⟨false, 0, 0, 0⟩
    let top := (idleForEver.skip k).1
    (top.skip k).2.1 = true ∧ (top.skip k).1.heldValue = top.heldValue ∧
      (top.skip k).1.pending = top.pending ∧ (top.skip k).1.foreign = top.foreign ∧
      ((sleeper.skip k).2.1 = true ∧ (sleeper.skip k).1.heldValue = 11 ∧
        (sleeper.skip k).1.deadlines false = [10]) := by
  decide +kernel

end Clock

end Snare.Time
