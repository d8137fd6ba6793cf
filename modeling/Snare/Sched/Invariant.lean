import Snare.Sched.Sections

/-!
# What the schedule keeps

`Fits` is what one slot shows: where its thread's code stands, whether it holds the baton, and what
the two marks of a let-go thread allow. `Good` adds the counters and that the holder has a slot. The
holder is a parameter of both: a section that lets go of the baton and then wakes waiters is
followed with no holder before it says so.

* **`Good.replace`**: a change of one thread's slot, of its phase and of the holder;
* **`Good.modify`**, **`Good.insert`**, **`Good.erase`**: its slot changes, is new, or is gone;
* **`Good.map`**: a change of every slot.
-/

namespace Snare.Sched

open SortedMap

def Slot.granted (slot : Slot) : Bool :=
  match slot.latch with
  | some (.run _) => true
  | _ => false

/-- No leftover of a native wait: not marked, not queued, no grant pending. -/
structure Slot.Settled (slot : Slot) : Prop where
  outside : slot.outside = none
  runnable : slot.runnable = none
  granted : slot.granted = false

/-- **One slot's invariant**, for a thread that stands at `phase` and holds the baton or not. -/
structure Fits (phase : Phase) (holds : Prop) (slot : Slot) : Prop where
  present : phase ≠ .absent
  apart : slot.runnable.isSome → slot.blocked = none
  idle : holds → slot.runnable = none ∧ slot.blocked = none
  waits : slot.blocked.isSome → phase = .parked
  /-- A thread that runs is queued only if it was let go. -/
  queued : slot.runnable.isSome → phase = .running → slot.letGo
  granted : slot.granted → slot.runnable = none ∧ slot.blocked = none
  /-- A grant to a thread that has yet to park is the baton's. -/
  early : slot.granted → phase ≠ .parked → holds
  earlyLetGo : slot.granted → phase = .running → slot.letGo
  marked : slot.outside.isSome →
    slot.letGo ∧ phase = .running ∧ ¬ holds ∧ slot.runnable = none ∧ slot.granted = false
  born : slot.letGo → phase ≠ .unborn

namespace Fits

variable {phase : Phase} {holds : Prop} {slot : Slot}

theorem fresh (hphase : phase ≠ .absent) : Fits phase holds {} where
  present := hphase
  apart h := by simp at h
  idle _ := ⟨rfl, rfl⟩
  waits h := by simp at h
  queued h := by simp at h
  granted h := by simp [Slot.granted] at h
  early h := by simp [Slot.granted] at h
  earlyLetGo h := by simp [Slot.granted] at h
  marked h := by simp at h
  born h := by simp at h

section

variable (h : Fits phase holds slot)
include h

theorem congr {holds' : Prop} (hholds : holds' ↔ holds) : Fits phase holds' slot := by
  rwa [propext hholds]

section

variable (hblocked : slot.blocked.isSome)
include hblocked

theorem waiter :
    phase = .parked ∧ ¬ holds ∧ slot.runnable = none ∧ slot.granted = false
      ∧ slot.outside = none := by
  have hparked := h.waits hblocked
  refine ⟨hparked, ?_, ?_, ?_, ?_⟩
  · intro hholds
    simp [(h.idle hholds).2] at hblocked
  · by_contra hrunnable
    simp [h.apart (Option.isSome_iff_ne_none.mpr hrunnable)] at hblocked
  · by_contra hgranted
    simp [(h.granted (by simpa using hgranted)).2] at hblocked
  · by_contra hmark
    have hrunning := (h.marked (Option.isSome_iff_ne_none.mpr hmark)).2.1
    simp [hparked] at hrunning

theorem unblock (why : DetWake) :
    Fits phase holds { slot with blocked := none, runnable := some why } := by
  obtain ⟨hparked, hholds, -, hgranted, hmark⟩ := h.waiter hblocked
  constructor <;> simp_all [Slot.granted]

theorem letGo : Fits phase holds
      { slot with blocked := none, letGo := true, latch := some (.run .woken) } := by
  obtain ⟨hparked, hholds, hrunnable, -, hmark⟩ := h.waiter hblocked
  constructor <;> simp_all [Slot.granted]

end

theorem dropRunnable : Fits phase holds { slot with runnable := none } where
  __ := h
  apart hr := by simp at hr
  idle hholds := ⟨rfl, (h.idle hholds).2⟩
  queued hr := by simp at hr
  granted hg := ⟨rfl, (h.granted hg).2⟩
  marked hm := ⟨(h.marked hm).1, (h.marked hm).2.1, (h.marked hm).2.2.1, rfl, (h.marked hm).2.2.2.2⟩

theorem dropBlocked : Fits phase holds { slot with blocked := none } where
  __ := h
  apart _ := rfl
  idle hholds := ⟨(h.idle hholds).1, rfl⟩
  waits hb := by simp at hb
  granted hg := ⟨(h.granted hg).1, rfl⟩

theorem release (hmark : slot.outside.isSome) (why : DetWake) :
    Fits phase holds { slot with outside := none, runnable := some why } := by
  obtain ⟨hletGo, hrunning, hholds, -, hgranted⟩ := h.marked hmark
  have hblocked : slot.blocked = none := by
    by_contra hb
    simp [h.waits (Option.isSome_iff_ne_none.mpr hb)] at hrunning
  constructor <;> simp_all [Slot.granted]

theorem grant (hrunnable : slot.runnable.isSome) (why : DetWake) :
    Fits phase True { slot with runnable := none, latch := some (.run why) } where
  __ := h
  apart hr := by simp at hr
  idle _ := ⟨rfl, h.apart hrunnable⟩
  queued hr := by simp at hr
  granted _ := ⟨rfl, h.apart hrunnable⟩
  early _ _ := trivial
  earlyLetGo _ := h.queued hrunnable
  marked hm := by
    have hnot := (h.marked hm).2.2.2.1
    simp [hnot] at hrunnable

theorem forget : Fits phase holds { slot with latch := none } where
  __ := h
  granted hg := by simp [Slot.granted] at hg
  early hg := by simp [Slot.granted] at hg
  earlyLetGo hg := by simp [Slot.granted] at hg
  marked hm := ⟨(h.marked hm).1, (h.marked hm).2.1, (h.marked hm).2.2.1, (h.marked hm).2.2.2.1, rfl⟩

theorem delegated : Fits phase holds { slot with latch := slot.latch.or (some .dispatch) } := by
  cases hlatch : slot.latch with
  | some grant =>
    rw [Option.some_or, ← hlatch]
    exact h
  | none =>
    obtain ⟨present, apart, idle, waits, queued, -, -, -, marked, born⟩ := h
    constructor <;> simp_all [Slot.granted]

theorem handOn (hgranted : slot.granted = false) : Fits phase False slot where
  __ := h
  idle := False.elim
  early hg := by simp [hgranted] at hg
  marked hm := ⟨(h.marked hm).1, (h.marked hm).2.1, not_false, (h.marked hm).2.2.2⟩

end

theorem not_marked (h : Fits phase holds slot) (hphase : phase ≠ .running) :
    slot.outside = none := by
  by_contra hm
  exact hphase (h.marked (Option.isSome_iff_ne_none.mpr hm)).2.1

theorem resume (h : Fits .parked holds slot) (hgranted : slot.granted) :
    Fits .running holds { slot with latch := none } := by
  obtain ⟨hrunnable, hblocked⟩ := h.granted hgranted
  have hmark := h.not_marked (by decide)
  constructor <;> simp_all [Slot.granted]

theorem park (h : Fits phase holds slot) (hmark : slot.outside = none) :
    Fits .parked holds slot := by
  obtain ⟨present, apart, idle, waits, queued, granted, early, earlyLetGo, -, born⟩ := h
  constructor <;> simp_all

theorem not_blocked (h : Fits .running holds slot) : slot.blocked = none := by
  by_contra hb
  simpa using h.waits (Option.isSome_iff_ne_none.mpr hb)

theorem block (hsettled : slot.Settled) (b : Blocked × Nat) (letGo : Bool) :
    Fits .parked False { slot with blocked := some b, letGo } := by
  obtain ⟨houtside, hrunnable, hgranted⟩ := hsettled
  constructor <;> simp_all [Slot.granted]

theorem enqueue (h : Fits .parked holds slot) (hholds : ¬ holds) (hblocked : slot.blocked = none)
    (hgranted : slot.granted = false) (why : DetWake) :
    Fits .parked holds { slot with runnable := some why } := by
  have hmark := h.not_marked (by decide)
  constructor <;> simp_all [Slot.granted]

theorem queue (h : Fits .running holds slot) (hsettled : slot.Settled) (why : DetWake) :
    Fits .parked False { slot with runnable := some why } := by
  have hparked := (h.handOn hsettled.granted).park hsettled.outside
  exact hparked.enqueue not_false h.not_blocked hsettled.granted why

theorem queueFresh (hpresent : phase ≠ .absent) (hrunning : phase ≠ .running) (why : DetWake) :
    Fits phase False { runnable := some why } := by
  constructor <;> simp_all [Slot.granted]

theorem start (h : Fits .unborn holds slot) (hholds : ¬ holds) (hrunnable : slot.runnable = none) :
    Fits .running holds slot := by
  have hgranted : slot.granted = false := by
    by_contra hg
    exact hholds (h.early (by simpa using hg) (by decide))
  have hblocked : slot.blocked = none := by
    by_contra hb
    simpa using h.waits (Option.isSome_iff_ne_none.mpr hb)
  have hmark := h.not_marked (by decide)
  constructor <;> simp_all

section

variable (h : Fits .running holds slot)
include h

theorem not_granted (hholds : ¬ holds) : slot.granted = false := by
  by_contra hg
  exact hholds (h.early (by simpa using hg) (by decide))

theorem clearLetGo (hsettled : slot.Settled) :
    Fits .running holds { slot with letGo := false } := by
  obtain ⟨houtside, hrunnable, hgranted⟩ := hsettled
  have hblocked := h.not_blocked
  constructor <;> simp_all [Slot.granted]

theorem mark (hletGo : slot.letGo) (hholds : ¬ holds)
    (hrunnable : slot.runnable = none) (key : DetKey) :
    Fits .running holds { slot with outside := some key } := by
  have hgranted := h.not_granted hholds
  have hblocked := h.not_blocked
  constructor <;> simp_all [Slot.granted]

end

theorem unmark (h : Fits phase holds slot) : Fits phase holds { slot with outside := none } where
  __ := h
  marked hm := by simp at hm

theorem rejoin (h : Fits .running holds slot) (hmark : slot.outside = none) :
    Fits .parked holds { slot with letGo := false } := by
  obtain ⟨present, apart, idle, waits, queued, granted, early, earlyLetGo, -, born⟩ := h
  constructor <;> simp_all [Slot.granted]

theorem repolled (h : Fits phase holds slot) (key : Option DetKey) :
    Fits phase holds { slot with repolled := key } :=
  { h with }

theorem spinner (h : Fits phase holds slot) (spinner : Option Bool) :
    Fits phase holds { slot with spinner } :=
  { h with }

end Fits

/-! ## The whole table -/

/-- **The table's invariant**: every slot fits its thread, the counters count, and a participant
that holds the baton has a slot. -/
structure Good (phase : Nat → Phase) (holder : Option Nat) (threads : SortedMap Nat Slot)
    (runnable blocked : Nat) : Prop where
  fits : ∀ t slot, threads.get? t = some slot → Fits (phase t) (holder = some t) slot
  held : ∀ t, holder = some t → t ≠ external → (threads.get? t).isSome
  /-- No thread has the executive's lineage. -/
  participants : threads.get? external = none
  runnable_eq : runnable = threads.count fun slot => slot.runnable.isSome
  blocked_eq : blocked = threads.count fun slot => slot.blocked.isSome

/-- The invariant of a state, with a holder that may not be the state's yet. -/
abbrev State.Good (st : State) (phase : Nat → Phase) (holder : Option Nat) : Prop :=
  Sched.Good phase holder st.threads st.runnable st.blocked

namespace Good

variable {phase phase' : Nat → Phase} {holder holder' : Option Nat}
  {threads : SortedMap Nat Slot} {runnable blocked runnable' blocked' t : Nat}

section

variable (h : Good phase holder threads runnable blocked)
include h

theorem ne_external {slot : Slot} (hslot : threads.get? t = some slot) : t ≠ external := by
  rintro rfl
  simp [h.participants] at hslot

theorem replace {threads' : SortedMap Nat Slot} {new : Option Slot}
    (hget : ∀ t', threads'.get? t' = if t' = t then new else threads.get? t')
    (hphase : ∀ t' ≠ t, phase' t' = phase t')
    (hholder : ∀ t' ≠ t, (holder' = some t' ↔ holder = some t'))
    (hfits : ∀ slot ∈ new, Fits (phase' t) (holder' = some t) slot)
    (hheld : holder' = some t → new.isSome) (hext : t = external → new = none)
    (hrunnable : runnable' = threads'.count fun slot => slot.runnable.isSome)
    (hblocked : blocked' = threads'.count fun slot => slot.blocked.isSome) :
    Good phase' holder' threads' runnable' blocked' where
  fits t' slot hslot := by
    rw [hget] at hslot
    split at hslot
    · next heq => exact heq ▸ hfits slot hslot
    · next hne =>
      rw [hphase t' hne]
      exact (h.fits t' slot hslot).congr (hholder t' hne)
  held t' hholder' hext' := by
    rw [hget]
    split
    · next heq => exact hheld (heq ▸ hholder')
    · next hne => exact h.held t' ((hholder t' hne).mp hholder') hext'
  participants := by
    rw [hget]
    split
    · next heq => exact hext heq.symm
    · exact h.participants
  runnable_eq := hrunnable
  blocked_eq := hblocked

theorem modify {slot : Slot} {f : Slot → Slot}
    (hslot : threads.get? t = some slot) (hphase : ∀ t' ≠ t, phase' t' = phase t')
    (hholder : ∀ t' ≠ t, (holder' = some t' ↔ holder = some t'))
    (hfits : Fits (phase' t) (holder' = some t) (f slot))
    (hrunnable : runnable' + slot.runnable.isSome.toNat = runnable + (f slot).runnable.isSome.toNat)
    (hblocked : blocked' + slot.blocked.isSome.toNat = blocked + (f slot).blocked.isSome.toNat) :
    Good phase' holder' (threads.modify t f) runnable' blocked' := by
  refine h.replace (fun t' => by rw [get?_modify, hslot, Option.map_some]) hphase hholder ?_
    (fun _ => rfl) (fun heq => absurd heq (h.ne_external hslot)) ?_ ?_
  · rintro _ ⟨⟩
    exact hfits
  · have := count_modify hslot f fun slot => slot.runnable.isSome
    have := h.runnable_eq
    omega
  · have := count_modify hslot f fun slot => slot.blocked.isSome
    have := h.blocked_eq
    omega

theorem touch {f : Slot → Slot}
    (hfits : ∀ slot, threads.get? t = some slot → Fits (phase t) (holder = some t) slot →
      Fits (phase t) (holder = some t) (f slot))
    (hrunnable : ∀ slot, (f slot).runnable.isSome = slot.runnable.isSome)
    (hblocked : ∀ slot, (f slot).blocked.isSome = slot.blocked.isSome) :
    Good phase holder (threads.modify t f) runnable blocked := by
  cases hslot : threads.get? t with
  | some slot =>
    refine h.modify hslot (fun _ _ => rfl) (fun _ _ => Iff.rfl) ?_ ?_ ?_
    · exact hfits slot hslot (h.fits t slot hslot)
    · rw [hrunnable]
    · rw [hblocked]
  | none => rwa [modify_of_none hslot]

theorem regard (ht : t ≠ external) (hphase : ∀ t' ≠ t, phase' t' = phase t')
    (hholder : ∀ t' ≠ t, (holder' = some t' ↔ holder = some t'))
    (hfits : ∀ slot, threads.get? t = some slot → Fits (phase t) (holder = some t) slot →
      Fits (phase' t) (holder' = some t) slot)
    (hheld : holder' = some t → (threads.get? t).isSome) :
    Good phase' holder' threads runnable blocked := by
  refine h.replace (fun t' => ?_) hphase hholder ?_ hheld (absurd · ht) h.runnable_eq h.blocked_eq
  · split
    · next heq => rw [heq]
    · rfl
  · exact fun slot hslot => hfits slot hslot (h.fits t slot hslot)

theorem absentee (ht : t ≠ external)
    (hnone : threads.get? t = none) (hphase : ∀ t' ≠ t, phase' t' = phase t') :
    Good phase' holder threads runnable blocked := by
  refine h.regard ht hphase (fun _ _ => Iff.rfl) ?_ ?_
  · intro slot hslot
    simp [hnone] at hslot
  · exact fun hholder => h.held t hholder ht

theorem not_held (ht : t ≠ external) (hnone : threads.get? t = none) : holder ≠ some t := by
  intro hholder
  simpa [hnone] using h.held t hholder ht

theorem slot_none (habsent : phase t = .absent) : threads.get? t = none := by
  by_contra hslot
  obtain ⟨slot, hslot⟩ := Option.ne_none_iff_exists'.mp hslot
  exact (h.fits t slot hslot).present habsent

theorem executive (hholder : holder = none ∨ holder = some external)
    (hholder' : holder' = none ∨ holder' = some external) :
    Good phase holder' threads runnable blocked := by
  -- neither holder is a thread with a slot
  have hnone : ∀ (o : Option Nat), o = none ∨ o = some external → ∀ t, t ≠ external →
      o ≠ some t := by
    rintro o (rfl | rfl) t ht heq
    · cases heq
    · exact ht (Option.some.inj heq).symm
  constructor
  case fits =>
    intro t slot hslot
    have hext := h.ne_external hslot
    exact (h.fits t slot hslot).congr
      (iff_of_false (hnone _ hholder' t hext) (hnone _ hholder t hext))
  case held => exact fun t heq hext => absurd heq (hnone _ hholder' t hext)
  case participants => exact h.participants
  case runnable_eq => exact h.runnable_eq
  case blocked_eq => exact h.blocked_eq

theorem insert {f : Option Slot → Option Slot} (ht : t ≠ external) (hslot : threads.get? t = none)
    (hnew : f none = some {}) (hphase : ∀ t' ≠ t, phase' t' = phase t')
    (hholder : ∀ t' ≠ t, (holder' = some t' ↔ holder = some t')) (hpresent : phase' t ≠ .absent) :
    Good phase' holder' (threads.alter t f) runnable blocked := by
  refine h.replace (fun t' => by rw [get?_alter, hslot, hnew]) hphase hholder ?_ (fun _ => rfl)
    (absurd · ht) ?_ ?_
  · rintro _ ⟨⟩
    exact Fits.fresh hpresent
  · rw [count_alter_of_none hslot hnew rfl]
    exact h.runnable_eq
  · rw [count_alter_of_none hslot hnew rfl]
    exact h.blocked_eq

theorem erase
    (hidle : ∀ slot, threads.get? t = some slot → slot.runnable = none ∧ slot.blocked = none)
    (hphase : ∀ t' ≠ t, phase' t' = phase t')
    (hholder : ∀ t' ≠ t, (holder' = some t' ↔ holder = some t')) (hnot : holder' ≠ some t) :
    Good phase' holder' (threads.erase t) runnable blocked := by
  refine h.replace (fun t' => get?_erase ..) hphase hholder ?_ (absurd · hnot) (fun _ => rfl) ?_ ?_
  · rintro _ ⟨⟩
  · rw [count_erase fun slot hslot => by simp [(hidle slot hslot).1]]
    exact h.runnable_eq
  · rw [count_erase fun slot hslot => by simp [(hidle slot hslot).2]]
    exact h.blocked_eq

theorem map {f : Slot → Slot}
    (hfits : ∀ t slot, threads.get? t = some slot → Fits (phase t) (holder = some t) slot →
      Fits (phase t) (holder = some t) (f slot))
    (hrunnable : ∀ slot, (f slot).runnable.isSome = slot.runnable.isSome)
    (hblocked : blocked' = threads.count fun slot => (f slot).blocked.isSome) :
    Good phase holder (threads.map fun _ => f) runnable blocked' where
  fits t slot hslot := by
    rw [get?_map, Option.map_eq_some_iff] at hslot
    obtain ⟨old, hold, rfl⟩ := hslot
    exact hfits t old hold (h.fits t old hold)
  held t hholder hext := by
    rw [get?_map, Option.isSome_map]
    exact h.held t hholder hext
  participants := by rw [get?_map, h.participants, Option.map_none]
  runnable_eq := by
    rw [count_map, h.runnable_eq]
    congr 1
    funext slot
    exact (hrunnable slot).symm
  blocked_eq := by
    rw [count_map, hblocked]
    rfl

end

end Good

end Snare.Sched
