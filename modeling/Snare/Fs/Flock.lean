import Snare.Fs.Locks
import Snare.Lib.Runs

/-!
# Linux `flock` by several threads

A Linux `flock` takes the inode's mutex twice: the first section drops a lock of the other type that
the description holds (`Table.flockConvert`), the second attempts the new one
(`Table.flockAttempt`), again and again if the call blocks. Between them other threads' sections
run, those of threads that share the description included.

The attempt looks at the locks of other descriptions only, so nothing in the second section keeps a
description from a second entry.

* **`flock_sound`**: a description gets no second entry as long as a call that asks for a lock
  begins only while no other call on its description is between its two sections. What the first
  section drops is then still gone when the second one pushes.
* **`flock_two_entries`**: two calls on one description whose sections alternate.
-/

namespace Snare.Locks

open List

/-- Where a thread stands between the sections of its `flock` call. -/
inductive Phase where
  | idle
  | attempting (description : Nat) (exclusive nonblocking : Bool)

structure FlockState where
  table : Table
  phase : Nat → Phase

def FlockState.init : FlockState := ⟨Table.empty, fun _ => .idle⟩

inductive FlockAct where
  /-- A thread calls `flock`: its first section. -/
  | call (thread description : Nat) (operation : BitVec 32)
  /-- A thread in its call attempts the lock. -/
  | attempt (thread : Nat)
  /-- A blocking thread's wait ends without the lock. -/
  | interrupt (thread : Nat)
  /-- The last descriptor of a description closes. -/
  | release (description : Nat)

/-- One section; an action of a thread that is not at that point does nothing. -/
def FlockState.step (s : FlockState) : FlockAct → FlockState
  | .call thread description operation =>
    match s.phase thread with
    | .attempting .. => s
    | .idle =>
      match operationKind .linux operation with
      | none => { s with table := s.table.dropFlock description }
      | some (.error _) => s
      | some (.ok exclusive) =>
        match s.table.flockConvert description exclusive with
        | none => s
        | some (table, _) =>
          { table
            phase := Function.update s.phase thread
              (.attempting description exclusive (operation &&& lockNb ≠ 0)) }
  | .attempt thread =>
    match s.phase thread with
    | .idle => s
    | .attempting description exclusive nonblocking =>
      match s.table.flockAttempt description exclusive with
      | some table => { table, phase := Function.update s.phase thread .idle }
      | none =>
        if nonblocking then { s with phase := Function.update s.phase thread .idle } else s
  | .interrupt thread =>
    match s.phase thread with
    | .attempting _ _ false => { s with phase := Function.update s.phase thread .idle }
    | _ => s
  | .release description => { s with table := s.table.releaseDescription description }

/-- The lock an action returns success for: the description and whether it is exclusive. -/
def FlockState.granted (s : FlockState) : FlockAct → Option (Nat × Bool)
  | .call thread description operation =>
    match s.phase thread, operationKind .linux operation with
    | .idle, some (.ok exclusive) =>
      if (s.table.flockConvert description exclusive).isNone then some (description, exclusive)
      else none
    | _, _ => none
  | .attempt thread =>
    match s.phase thread with
    | .idle => none
    | .attempting description exclusive _ =>
      if (s.table.flockAttempt description exclusive).isSome then some (description, exclusive)
      else none
  | .interrupt _ => none
  | .release _ => none

/-- Each description has at most one entry, and entries of two descriptions are both shared. -/
def Sound (flocks : List (Nat × Bool)) : Prop :=
  (flocks.map Prod.fst).Nodup ∧ ∀ e ∈ flocks, ∀ e' ∈ flocks, e.1 ≠ e'.1 → e.2 = false ∧ e'.2 = false

instance (flocks : List (Nat × Bool)) : Decidable (Sound flocks) :=
  inferInstanceAs (Decidable (_ ∧ _))

/-- After a successful `LOCK_SH` the description holds no exclusive entry. -/
def SharedAlone (s : FlockState) (a : FlockAct) : Prop :=
  ∀ e ∈ s.granted a, e.2 = false → (e.1, true) ∉ (s.step a).table.flocks

/-- The thread has run the first section of a call on the description, and not yet left the call. -/
def FlockState.Between (s : FlockState) (thread description : Nat) : Prop :=
  ∃ exclusive nonblocking, s.phase thread = .attempting description exclusive nonblocking

/-- A call that asks for a lock begins while no other thread is between the two sections of a call
on the same description. An unlock and a release may come at any time. -/
def Serial (s : FlockState) : FlockAct → Prop
  | .call thread description operation =>
    (∃ exclusive, operationKind .linux operation = some (.ok exclusive)) →
      ∀ other, other ≠ thread → ¬ s.Between other description
  | _ => True

/-! ## What a section keeps -/

theorem Sound.sublist {l l' : List (Nat × Bool)} (h : Sound l) (hl : List.Sublist l' l) :
    Sound l' :=
  ⟨h.1.sublist (hl.map _), fun e he e' he' => h.2 e (hl.subset he) e' (hl.subset he')⟩

variable {t : Table} {description : Nat} {exclusive : Bool}

theorem flockConvert_sublist {t' : Table} {converted : Bool}
    (h : t.flockConvert description exclusive = some (t', converted)) :
    List.Sublist t'.flocks t.flocks := by
  unfold Table.flockConvert at h
  split at h
  · split at h
    · cases h
    · cases h
      exact eraseIdx_sublist _ _
  · cases h
    exact List.Sublist.refl _

/-- The first section leaves its description without an entry, if there was at most one. -/
theorem flockConvert_dropped {t' : Table} {converted : Bool}
    (hnodup : (t.flocks.map Prod.fst).Nodup)
    (h : t.flockConvert description exclusive = some (t', converted)) :
    description ∉ t'.flocks.map Prod.fst := by
  unfold Table.flockConvert at h
  split at h
  · next i hi =>
    split at h
    · cases h
    · cases h
      obtain ⟨hlt, hfst, -⟩ := findIdx?_eq_some_iff_getElem.mp hi
      have hlt' : i < (t.flocks.map Prod.fst).length := by simpa using hlt
      have hkey : (t.flocks.map Prod.fst)[i] = description := by simpa using hfst
      rw [← eraseIdx_map, ← hnodup.erase_getElem i hlt', hkey]
      exact hnodup.not_mem_erase
  · next hnone =>
    cases h
    rw [findIdx?_eq_none_iff] at hnone
    intro hmem
    obtain ⟨e, he, hfst⟩ := mem_map.mp hmem
    simpa [hfst] using hnone e he

theorem releaseDescription_flocks (t : Table) (description : Nat) :
    (t.releaseDescription description).flocks = t.flocks.filter (·.1 != description) := rfl

theorem flockConflict_eq_false
    (h : t.flockConflict description exclusive = false) {e : Nat × Bool} (he : e ∈ t.flocks)
    (hne : e.1 ≠ description) : exclusive = false ∧ e.2 = false := by
  simp only [Table.flockConflict, any_eq_false] at h
  simpa [hne] using h e he

theorem Sound.attempt {t' : Table} (h : Sound t.flocks)
    (ha : t.flockAttempt description exclusive = some t')
    (hfresh : description ∉ t.flocks.map Prod.fst) : Sound t'.flocks := by
  unfold Table.flockAttempt at ha
  split at ha
  · cases ha
  · next hfree =>
    cases ha
    have hshared : ∀ e ∈ t.flocks, e.1 ≠ description → exclusive = false ∧ e.2 = false :=
      fun e he => flockConflict_eq_false (by simpa using hfree) he
    refine ⟨?_, ?_⟩
    · rw [map_append, nodup_append]
      refine ⟨h.1, by simp, ?_⟩
      rintro a ha b hb rfl
      simp only [map_cons, map_nil, mem_singleton] at hb
      exact hfresh (hb ▸ ha)
    · intro e he e' he' hne
      simp only [mem_append, mem_singleton] at he he'
      rcases he with he | rfl <;> rcases he' with he' | rfl
      · exact h.2 e he e' he' hne
      · exact (hshared e he hne).symm
      · exact hshared e' he' hne.symm
      · exact absurd rfl hne

theorem flockAttempt_isSome : (∃ t', t.flockAttempt description exclusive = some t') ↔
      t.flockConflict description exclusive = false := by
  unfold Table.flockAttempt
  split <;> simp_all

variable {s : FlockState} {a : FlockAct}

/-- What serial calls keep: a call between its sections is alone on its description, and the
description has no entry. -/
structure FlockInv (s : FlockState) : Prop where
  sound : Sound s.table.flocks
  dropped : ∀ thread d, s.Between thread d → d ∉ s.table.flocks.map Prod.fst
  alone : ∀ thread thread' d, s.Between thread d → s.Between thread' d → thread = thread'

/-- A section that only drops entries, and lets threads only leave their calls. -/
theorem FlockInv.fewer {s' : FlockState} (h : FlockInv s)
    (htable : List.Sublist s'.table.flocks s.table.flocks)
    (hphase : ∀ thread d, s'.Between thread d → s.Between thread d) : FlockInv s' where
  sound := h.sound.sublist htable
  dropped thread d hd hmem := h.dropped thread d (hphase _ _ hd) ((htable.map _).subset hmem)
  alone thread thread' d hd hd' := h.alone thread thread' d (hphase _ _ hd) (hphase _ _ hd')

theorem between_update {thread other d : Nat} {phase : Phase}
    (h : (FlockState.mk t (Function.update s.phase thread phase)).Between other d) :
    other = thread ∧ (∃ x nonblocking, phase = .attempting d x nonblocking)
      ∨ other ≠ thread ∧ s.Between other d := by
  by_cases hother : other = thread
  · subst hother
    simp only [FlockState.Between, Function.update_self] at h
    exact .inl ⟨rfl, h⟩
  · simp only [FlockState.Between, Function.update_of_ne hother] at h
    exact .inr ⟨hother, h⟩

theorem between_left {thread other d : Nat}
    (h : (FlockState.mk t (Function.update s.phase thread .idle)).Between other d) :
    other ≠ thread ∧ s.Between other d := by
  rcases between_update h with ⟨-, x, nonblocking, hphase⟩ | hother
  · cases hphase
  · exact hother

/-- The first section of a call that asks for a lock. -/
theorem FlockInv.convert {t' : Table} {converted nonblocking : Bool} {thread : Nat} (h : FlockInv s)
    (hconv : s.table.flockConvert description exclusive = some (t', converted))
    (hserial : ∀ other, other ≠ thread → ¬ s.Between other description) :
    FlockInv ⟨t', Function.update s.phase thread
      (.attempting description exclusive nonblocking)⟩ where
  sound := h.sound.sublist (flockConvert_sublist hconv)
  dropped other d hd := by
    rcases between_update hd with ⟨-, x, nb, hphase⟩ | ⟨-, hother⟩
    · cases hphase
      exact flockConvert_dropped h.sound.1 hconv
    · exact fun hmem => h.dropped other d hother (((flockConvert_sublist hconv).map _).subset hmem)
  alone other other' d hd hd' := by
    -- the caller is alone on its description, the other threads were before
    rcases between_update hd with ⟨rfl, x, nb, hphase⟩ | ⟨hne, hother⟩ <;>
      rcases between_update hd' with ⟨rfl, x', nb', hphase'⟩ | ⟨hne', hother'⟩
    · rfl
    · cases hphase
      exact absurd hother' (hserial other' hne')
    · cases hphase'
      exact absurd hother (hserial other hne)
    · exact h.alone other other' d hother hother'

/-- The section that grants the lock. -/
theorem FlockInv.grant {t' : Table} {nonblocking : Bool} {thread : Nat} (h : FlockInv s)
    (hphase : s.phase thread = .attempting description exclusive nonblocking)
    (ha : s.table.flockAttempt description exclusive = some t') :
    FlockInv ⟨t', Function.update s.phase thread .idle⟩ where
  sound := h.sound.attempt ha (h.dropped thread description ⟨exclusive, nonblocking, hphase⟩)
  dropped other d hd hmem := by
    obtain ⟨hne, hother⟩ := between_left hd
    have hflocks : t'.flocks = s.table.flocks ++ [(description, exclusive)] := by
      unfold Table.flockAttempt at ha
      split at ha
      · cases ha
      · cases ha
        rfl
    rw [hflocks, map_append, mem_append] at hmem
    rcases hmem with hmem | hmem
    · exact h.dropped other d hother hmem
    · -- another thread between its sections on this description
      obtain rfl : d = description := by simpa using hmem
      exact hne (h.alone other thread d hother ⟨exclusive, nonblocking, hphase⟩)
  alone other other' d hd hd' := h.alone other other' d (between_left hd).2 (between_left hd').2

theorem FlockInv.step (h : FlockInv s) (hserial : Serial s a) : FlockInv (s.step a) := by
  cases a with
  | call thread description operation =>
    simp only [FlockState.step]
    split
    · exact h
    split
    · -- an unlock only takes an entry away
      exact h.fewer filter_sublist fun _ _ => id
    · exact h
    · next exclusive hkind =>
      split
      · exact h
      · next hconv => exact h.convert hconv (hserial ⟨exclusive, hkind⟩)
  | attempt thread =>
    simp only [FlockState.step]
    split
    · exact h
    · next description exclusive nonblocking hphase =>
      split
      · next t' ha => exact h.grant hphase ha
      · -- a conflict: the call gives up, or stays where it is
        split
        · exact h.fewer (List.Sublist.refl _) fun _ _ hd => (between_left hd).2
        · exact h
  | interrupt thread =>
    simp only [FlockState.step]
    split
    · exact h.fewer (List.Sublist.refl _) fun _ _ hd => (between_left hd).2
    · exact h
  | release description =>
    exact h.fewer (releaseDescription_flocks _ _ ▸ filter_sublist) fun _ _ => id

theorem flockConvert_eq_none
    (h : t.flockConvert description exclusive = none) : (description, exclusive) ∈ t.flocks := by
  unfold Table.flockConvert at h
  split at h
  · next i hi =>
    split at h
    · next hsnd =>
      obtain ⟨e, he, hsnd⟩ := Option.map_eq_some_iff.mp hsnd
      obtain ⟨hlt, hfst, -⟩ := findIdx?_eq_some_iff_getElem.mp hi
      have hget : t.flocks[i] = e := Option.some.inj ((getElem?_eq_getElem hlt).symm.trans he)
      have : e = (description, exclusive) :=
        Prod.ext (by simpa [hget] using hfst) hsnd
      exact this ▸ hget ▸ getElem_mem hlt
    · cases h
  · cases h

theorem granted_mem {e : Nat × Bool} (h : e ∈ s.granted a) : e ∈ (s.step a).table.flocks := by
  cases a with
  | call thread description operation =>
    simp only [FlockState.granted] at h
    split at h
    · next exclusive hidle hkind =>
      split at h
      · next hnone =>
        obtain rfl : (description, exclusive) = e := by simpa using h
        rw [Option.isNone_iff_eq_none] at hnone
        simp only [FlockState.step, hidle, hkind, hnone]
        exact flockConvert_eq_none hnone
      · simp at h
    · simp at h
  | attempt thread =>
    simp only [FlockState.granted] at h
    split at h
    · simp at h
    · next description exclusive nonblocking hphase =>
      split at h
      · next hsome =>
        obtain rfl : (description, exclusive) = e := by simpa using h
        obtain ⟨t', ha⟩ := Option.isSome_iff_exists.mp hsome
        have hfree := flockAttempt_isSome.mp ⟨t', ha⟩
        simp [FlockState.step, hphase, Table.flockAttempt, hfree]
      · simp at h
  | interrupt thread => simp [FlockState.granted] at h
  | release description => simp [FlockState.granted] at h

theorem sharedAlone_of_sound (h : Sound (s.step a).table.flocks) : SharedAlone s a := by
  rintro ⟨description, exclusive⟩ he rfl hexcl
  have := inj_on_of_nodup_map h.1 (granted_mem he) hexcl rfl
  simp at this

/-- **Linux `flock` is sound for serial calls.** Along every run in which no call that asks for a
lock begins while another thread is between the two sections of a call on the same description,
every description has at most one entry, entries of different descriptions are all shared, and a
successful `LOCK_SH` leaves its description without an exclusive entry. -/
theorem flock_sound (acts : List FlockAct)
    (h : Runs.Along FlockState.step Serial FlockState.init acts) :
    Runs.Always FlockState.step (fun s => Sound s.table.flocks) FlockState.init acts ∧
      Runs.Along FlockState.step SharedAlone FlockState.init acts := by
  have hinit : FlockInv FlockState.init := by
    refine ⟨by decide, ?_, ?_⟩
    · rintro thread d ⟨x, nonblocking, hphase⟩
      cases hphase
    · rintro thread thread' d ⟨x, nonblocking, hphase⟩
      cases hphase
  have hsound : Runs.Always FlockState.step (fun s => Sound s.table.flocks) FlockState.init acts :=
    (Runs.always_of_along (fun _ _ h hserial => h.step hserial) hinit h).imp fun _ h => h.sound
  exact ⟨hsound, hsound.along fun _ _ => sharedAlone_of_sound⟩

/-- Threads 0 and 1 share description 7. Thread 0 locks it shared, thread 2 waits for description 8,
thread 1 converts description 7 and has to wait until thread 2 has had its turn. -/
def conversion : List FlockAct :=
  [.call 0 7 lockSh, .attempt 0, .call 2 8 lockEx, .attempt 2, .call 1 7 lockEx, .attempt 2,
    .attempt 1, .call 2 8 lockUn, .attempt 1]

theorem flock_sound_conversion :
    (conversion.foldl FlockState.step FlockState.init).table.flocks = [(7, true)] ∧
      Runs.Always FlockState.step (fun s => Sound s.table.flocks) FlockState.init conversion := by
  refine ⟨by decide, (flock_sound conversion ?_).1⟩
  refine ⟨?_, trivial, ?_, trivial, ?_, trivial, trivial, ?_, trivial, trivial⟩
  · rintro - (_ | _ | _ | other) - ⟨x, nonblocking, hphase⟩ <;> cases hphase
  · rintro - (_ | _ | _ | other) - ⟨x, nonblocking, hphase⟩ <;> cases hphase
  · rintro - (_ | _ | _ | other) - ⟨x, nonblocking, hphase⟩ <;> cases hphase
  · rintro - (_ | _ | _ | other) - ⟨x, nonblocking, hphase⟩ <;> cases hphase

/-- Two threads of one description, one locking shared and one exclusively: both first sections find
no entry, both attempts are granted, and the description holds a shared and an exclusive lock. -/
theorem flock_two_entries :
    let acts := [.call 0 7 lockSh, .call 1 7 lockEx, .attempt 1, .attempt 0]
    (acts.foldl FlockState.step FlockState.init).table.flocks = [(7, true), (7, false)] ∧
      ¬ (Runs.Always FlockState.step (fun s => Sound s.table.flocks) FlockState.init acts ∧
        Runs.Along FlockState.step SharedAlone FlockState.init acts) := by
  refine ⟨by decide, fun h => ?_⟩
  exact absurd h.1.last (by decide)

end Snare.Locks
