import Snare.Lib.Runs
import Snare.Lib.SortedMap

/-!
# An epoll set's watch

A call of `epoll_ctl` on a real descriptor changes the set under the lock of the socket table, lists
the set's real descriptors under it again, and replaces the watch by the list in a third section.
Two calls may replace it in the other order than they listed.

* **`EpollSet.InOrder`**: calls replace the watch in the order they listed, unless another call has
  yet to list;
* **`EpollSet.Inv`**: a call has yet to list, or the last list taken is the set's;
* **`EpollSet.watch_exact`**: along runs in order the watch is exact whenever no call is in
  progress;
* **`EpollSet.watch_outdated`**: the run of two calls that ends with the older list.
-/

namespace Snare.RealFd

open Function List

/-- A registration of a descriptor no simulated socket owns. -/
structure EpollInterest where
  events : UInt32
  spent : Bool := false

inductive CtlOp where
  | add
  | mod
  | del
  deriving DecidableEq

/-- Where a thread stands in `epoll_ctl`. -/
inductive Call where
  | idle
  /-- It has changed the set, and is to list it. -/
  | changed
  | listed (real : List (Nat × UInt32))

def Call.isListed : Call → Bool
  | .listed _ => true
  | _ => false

/-- The set, and the calls of the threads. -/
structure EpollSet where
  interests : SortedMap Nat EpollInterest
  real : Option (List (Nat × UInt32))
  calls : Nat → Call
  /-- Not in the source: the threads that have listed and not yet replaced the watch, in the order
  they listed. -/
  order : List Nat := []

inductive CtlAct where
  /-- `refused` for a descriptor that is not open, cannot be polled or is the set's own; a null
  event is `none`. -/
  | ctl (t : Nat) (op : CtlOp) (fd : Nat) (event : Option UInt32) (refused : Bool)
  | list (t : Nat)
  /-- `probe` says whether the OS gives a new watch its probe. -/
  | apply (t : Nat) (probe : Bool)

/-- `EPOLLIN | EPOLLOUT | EPOLLPRI | EPOLLRDHUP`. -/
def watchedEvents : UInt32 := 0x2007

/-- `watch_set`: made once there are any descriptors, dropped once there are none. -/
def watchSet (held : Option (List (Nat × UInt32))) (real : List (Nat × UInt32)) (probe : Bool) :
    Option (List (Nat × UInt32)) :=
  if real = [] then none else if held.isSome || probe then some real else none

namespace EpollSet

variable (owned : Nat → Bool)

def epollRealFds (s : EpollSet) : List (Nat × UInt32) :=
  ((s.interests.entries.filter fun e => !e.2.spent).map fun e =>
    (e.1, e.2.events &&& watchedEvents))
    |>.filter fun e => !owned e.1

/-- The first section of `epoll_ctl` on a real descriptor; one that fails changes nothing. -/
def epollCtl (s : EpollSet) (t : Nat) (op : CtlOp) (fd : Nat) (event : Option UInt32) : EpollSet :=
  let changed := fun interests => { s with interests, calls := update s.calls t .changed }
  match op, s.interests.get? fd, event with
  | .add, none, some events => changed (s.interests.insert fd { events })
  | .mod, some _, some events => changed (s.interests.insert fd { events })
  | .del, some _, _ => changed (s.interests.erase fd)
  | _, _, _ => s

def step (s : EpollSet) : CtlAct → EpollSet
  | .ctl t op fd event refused =>
    match s.calls t with
    | .idle => if refused || owned fd then s else s.epollCtl t op fd event
    | _ => s
  | .list t =>
    match s.calls t with
    | .changed =>
      { s with
        calls := update s.calls t (.listed (s.epollRealFds owned))
        order := s.order ++ [t] }
    | _ => s
  | .apply t probe =>
    match s.calls t with
    | .listed real =>
      { s with
        real := watchSet s.real real probe
        calls := update s.calls t .idle
        order := s.order.erase t }
    | _ => s

/-- The watch lists exactly the set's real descriptors, and is not there if there are none. -/
def Right (s : EpollSet) : Prop :=
  s.real = if s.epollRealFds owned = [] then none else some (s.epollRealFds owned)

def Quiet (s : EpollSet) : Prop := ∀ t, s.calls t = .idle

/-- A call replaces the watch before every call that listed after it, or while another call has yet
to list; and a new watch gets its probe. -/
def InOrder (s : EpollSet) : CtlAct → Prop
  | .apply t probe => (s.calls t).isListed → (s.real.isSome ∨ probe)
      ∧ (s.order.head? = some t ∨ ∃ t', s.calls t' = .changed)
  | _ => True

/-- Some call has yet to list, or the last list taken is the set's own: the watch's, if no call has
yet to replace it. -/
structure Inv (s : EpollSet) : Prop where
  mem : ∀ t, t ∈ s.order ↔ (s.calls t).isListed
  nodup : s.order.Nodup
  last : (∃ t, s.calls t = .changed) ∨
    match s.order.getLast? with
    | none => s.Right owned
    | some t => s.calls t = .listed (s.epollRealFds owned)

variable {owned} {s : EpollSet}

theorem watchSet_right {real : List (Nat × UInt32)} {probe : Bool} (h : s.real.isSome ∨ probe) :
    watchSet s.real real probe = if real = [] then none else some real := by
  unfold watchSet
  rw [if_pos (show s.real.isSome || probe by simpa using h)]

/-- A call that changes the set is to list it. -/
theorem Inv.change (h : s.Inv owned) {t : Nat} (hidle : s.calls t = .idle)
    (interests : SortedMap Nat EpollInterest) :
    Inv owned { s with interests, calls := update s.calls t .changed } where
  mem u := by
    by_cases hu : u = t
    · subst hu
      simp [h.mem, hidle, Call.isListed]
    · simp [h.mem, update_of_ne hu]
  nodup := h.nodup
  last := .inl ⟨t, update_self ..⟩

theorem Inv.epollCtl (h : s.Inv owned) {t : Nat} (hidle : s.calls t = .idle) (op : CtlOp) (fd : Nat)
    (event : Option UInt32) : (s.epollCtl t op fd event).Inv owned := by
  unfold EpollSet.epollCtl
  dsimp only
  split
  · exact h.change hidle _
  · exact h.change hidle _
  · exact h.change hidle _
  · exact h

/-- A call that lists has the set's list, and is the last that took one. -/
theorem Inv.list (h : s.Inv owned) {t : Nat} (hchanged : s.calls t = .changed) :
    Inv owned { s with
      calls := update s.calls t (.listed (s.epollRealFds owned))
      order := s.order ++ [t] } := by
  have hnew : t ∉ s.order := by simp [h.mem, hchanged, Call.isListed]
  refine ⟨fun u => ?_, ?_, .inr ?_⟩
  · by_cases hu : u = t
    · subst hu
      simp [Call.isListed]
    · simp [h.mem, hu]
  · exact nodup_append.mpr ⟨h.nodup, nodup_singleton t, by rintro u hu v hv rfl; simp_all⟩
  · simp only [getLast?_append, getLast?_singleton, Option.some_or]
    exact update_self ..

/-- The call replaces the watch by the oldest list, or another call has yet to list. -/
theorem Inv.apply (h : s.Inv owned) {t : Nat} {real : List (Nat × UInt32)} {probe : Bool}
    (hlisted : s.calls t = .listed real) (hprobe : s.real.isSome ∨ probe)
    (horder : s.order.head? = some t ∨ ∃ t', s.calls t' = .changed) :
    Inv owned { s with
      real := watchSet s.real real probe
      calls := update s.calls t .idle
      order := s.order.erase t } := by
  refine ⟨fun u => ?_, h.nodup.erase t, ?_⟩
  · rw [h.nodup.mem_erase_iff]
    by_cases hu : u = t
    · subst hu
      simp [Call.isListed]
    · simp [h.mem, hu]
  -- the call that has yet to list is another one
  have hother : (∃ t', s.calls t' = .changed) → ∃ t', update s.calls t .idle t' = .changed := by
    rintro ⟨t', ht'⟩
    refine ⟨t', (update_of_ne ?_ ..).trans ht'⟩
    rintro rfl
    rw [hlisted] at ht'
    cases ht'
  rcases horder with hhead | hchanged
  · obtain ⟨rest, hrest⟩ : ∃ rest, s.order = t :: rest := head?_eq_some_iff.mp hhead
    have hnodup := h.nodup
    rw [hrest, nodup_cons] at hnodup
    refine h.last.imp hother fun hlast => ?_
    simp only [hrest, erase_cons_head, getLast?_cons] at hlast ⊢
    cases hend : rest.getLast? with
    | none =>
      -- its own list is the last one taken
      rw [hend, Option.getD_none, hlisted] at hlast
      cases hlast
      exact watchSet_right hprobe
    | some u =>
      rw [hend, Option.getD_some] at hlast
      have hne : u ≠ t := fun hu => hnodup.1 (hu ▸ mem_of_getLast? hend)
      exact (update_of_ne hne ..).trans hlast
  · exact .inl (hother hchanged)

theorem Inv.step (h : s.Inv owned) {a : CtlAct} (horder : s.InOrder a) :
    (s.step owned a).Inv owned := by
  cases a with
  | ctl t op fd event refused =>
    dsimp only [EpollSet.step]
    split
    · -- a refused call ends before it changes the set
      split
      · exact h
      · exact h.epollCtl ‹_› op fd event
    · exact h
  | list t =>
    dsimp only [EpollSet.step]
    split
    · exact h.list ‹_›
    · exact h
  | apply t probe =>
    dsimp only [EpollSet.step]
    split
    · rename_i real hlisted
      obtain ⟨hprobe, horder⟩ := horder (by rw [hlisted]; rfl)
      exact h.apply hlisted hprobe horder
    · exact h

/-- With no call in progress, the list last taken is the watch's. -/
theorem Inv.right (h : s.Inv owned) (hquiet : s.Quiet) : s.Right owned := by
  have hnone : s.order = [] := eq_nil_iff_forall_not_mem.mpr fun t => by
    simp [h.mem, hquiet t, Call.isListed]
  rcases h.last with ⟨t, hchanged⟩ | hlast
  · rw [hquiet t] at hchanged
    cases hchanged
  · simpa [hnone] using hlast

/-- **The watch is exact when no call is in progress**, in every run from a quiet set in which calls
replace the watch in the order they listed, unless another call has yet to list. -/
theorem watch_exact (hright : s.Right owned) (hquiet : s.Quiet) (hnone : s.order = [])
    (as : List CtlAct) (h : Runs.Along (step owned) InOrder s as) :
    Runs.Always (step owned) (fun s => s.Quiet → s.Right owned) s as := by
  have hinit : Inv owned s :=
    ⟨fun t => by simp [hnone, hquiet t, Call.isListed], by simp [hnone], .inr (by simpa [hnone])⟩
  have hstep : ∀ s a, Inv owned s → InOrder s a → Inv owned (step owned s a) :=
    fun _ _ hinv horder => hinv.step horder
  exact (Runs.always_of_along hstep hinit h).imp fun s hinv hquiet => hinv.right hquiet

def none_ : EpollSet := ⟨.empty, none, fun _ => .idle, []⟩

/-- Two calls add descriptors 3 and 4, and their sections alternate: the first lists 3 alone and
replaces the watch after the second has listed both, but before it. -/
def alternating : List CtlAct :=
  [.ctl 0 .add 3 (some 1) false, .list 0, .ctl 1 .add 4 (some 1) false, .list 1, .apply 0 true,
    .apply 1 true]

theorem watch_exact_alternating :
    (alternating.foldl (step fun _ => false) none_).real = some [(3, 1), (4, 1)] ∧
      Runs.Always (step fun _ => false) (fun s => s.Quiet → s.Right fun _ => false) none_
        alternating := by
  refine ⟨by decide, watch_exact (show Right _ none_ from rfl) (fun _ => rfl) rfl _ ?_⟩
  exact ⟨trivial, trivial, trivial, trivial, fun _ => ⟨.inr rfl, .inl rfl⟩,
    fun _ => ⟨.inr rfl, .inl rfl⟩, trivial⟩

/-- Two calls add descriptors 3 and 4. The first lists 3 alone, and is the last to replace the
watch. -/
theorem watch_outdated :
    let s := List.foldl (step fun _ => false) none_
      [.ctl 0 .add 3 (some 1) false, .list 0, .ctl 1 .add 4 (some 1) false, .list 1, .apply 1 true,
        .apply 0 true]
    s.Quiet ∧ s.real = some [(3, 1)] ∧ s.epollRealFds (fun _ => false) = [(3, 1), (4, 1)] := by
  refine ⟨fun t => ?_, by decide, by decide⟩
  rcases t with _ | _ | t <;> rfl

end EpollSet

end Snare.RealFd
