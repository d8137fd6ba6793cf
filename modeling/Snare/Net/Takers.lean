import Snare.Lib.Holders
import Snare.Lib.Runs

/-!
# Blocking takers of a listener, an eventfd and a packet socket

`accept`, the read of an eventfd and the read of a packet socket block in one way: the call takes an
item if there is one, else waits until it sees one, and then takes it in another section. What it
does when another call took the item meanwhile is the source's own for each: `accept` fails with
`EAGAIN`, the eventfd reads 0 and the packet socket's read is declined, which hands it to the OS.

* **`step`**: the sections of the calls, and what arrives;
* **`Kept`**: no call takes an item while another call that saw one of the kind has yet to take it;
* **`Seen`**: in every run whose steps are `Kept`, what a call saw is still there;
* **`Inv`**: in such a run nothing is lost or taken twice;
* **`takers_fulfilled`**: its calls return with an item of their own.

Of two calls woken by one item, the second comes back empty-handed (`empty_handed`).
-/

namespace Snare.Takers

open Function List

/-! ## The calls -/

inductive Kind where
  | accept
  | eventfd
  | packet
  deriving DecidableEq

inductive Result where
  | conn (c : Nat)
  | value (v : Nat)
  | frame (f : Nat)
  /-- `EAGAIN`. -/
  | again
  /-- The call is passed to the OS. -/
  | declined
  /-- No descriptor could be had. -/
  | noFd
  deriving DecidableEq

inductive Place where
  | idle
  | waiting (k : Kind)
  /-- It saw an item. -/
  | woken (k : Kind)
  /-- `accept` took a connection and is to get a descriptor for it. -/
  | popped (c : Nat)
  deriving DecidableEq

structure State where
  /-- The calls, of the threads below `threads`. -/
  threads : Nat := 0
  calls : Nat → Place := fun _ => .idle
  /-- The listener's queue, of connections numbered as they arrive. -/
  pending : List Nat := []
  conns : Nat := 0
  /-- The packet socket's frames, numbered likewise. -/
  rx : List Nat := []
  frames : Nat := 0
  counter : Nat := 0
  semaphore : Bool := false
  /-- Not in the source: the connections taken, the values written to the eventfd, and what the
  calls returned. -/
  taken : List Nat := []
  written : Nat := 0
  returned : List (Kind × Result) := []

inductive Act where
  | call (t : Nat) (k : Kind)
  /-- The wait looks whether there is an item. -/
  | look (t : Nat)
  | take (t : Nat)
  | reserveFd (t : Nat) (ok : Bool)
  /-- `SO_RCVTIMEO` ends the wait of a packet socket's read. -/
  | expire (t : Nat)
  | connect
  | frame
  | write (add : Nat)

namespace State

variable (s : State)

def goto (t : Nat) (p : Place) : State := { s with calls := update s.calls t p }

def finish (t : Nat) (k : Kind) (r : Result) : State :=
  { s with returned := s.returned ++ [(k, r)] }.goto t .idle

/-- `has_pending`, `eventfd_peek > 0`, `raw_has`. -/
def has : Kind → Bool
  | .accept => !s.pending.isEmpty
  | .eventfd => decide (0 < s.counter)
  | .packet => !s.rx.isEmpty

/-- `pop`, `eventfd_take`, `raw_pop`; none where there is nothing. -/
def takeOne (t : Nat) : Kind → Option State
  | .accept =>
    match s.pending with
    | [] => none
    | c :: pending => some ({ s with pending, taken := s.taken ++ [c] }.goto t (.popped c))
  | .eventfd =>
    if s.counter = 0 then none
    else
      let value := if s.semaphore then 1 else s.counter
      some ({ s with counter := s.counter - value }.finish t .eventfd (.value value))
  | .packet =>
    match s.rx with
    | [] => none
    | f :: rx => some ({ s with rx }.finish t .packet (.frame f))

def gone : Kind → Result
  | .accept => .again
  | .eventfd => .value 0
  | .packet => .declined

def access (t : Nat) (p : Place) : Act → State
  | .call _ k => if p = .idle then (s.takeOne t k).getD (s.goto t (.waiting k)) else s
  | .look _ =>
    match p with
    | .waiting k => if s.has k then s.goto t (.woken k) else s
    | _ => s
  | .take _ =>
    match p with
    | .woken k => (s.takeOne t k).getD (s.finish t k (gone k))
    | _ => s
  | .reserveFd _ ok =>
    match p with
    | .popped c =>
      if ok then s.finish t .accept (.conn c)
      else { s with pending := c :: s.pending, taken := s.taken.erase c }.finish t .accept .noFd
    | _ => s
  | .expire _ =>
    match p with
    | .waiting .packet => s.finish t .packet .again
    | _ => s
  | .connect => { s with pending := s.pending ++ [s.conns], conns := s.conns + 1 }
  | .frame => { s with rx := s.rx ++ [s.frames], frames := s.frames + 1 }
  | .write add =>
    -- a larger sum waits for room; `u64::MAX` is refused
    if add ≠ 2 ^ 64 - 1 ∧ add ≤ 2 ^ 64 - 2 - s.counter then
      { s with counter := s.counter + add, written := s.written + add }
    else s

end State

def Act.thread : Act → Option Nat
  | .call t _ | .look t | .take t | .reserveFd t _ | .expire t => some t
  | .connect | .frame | .write _ => none

def State.step (s : State) (a : Act) : State :=
  match a.thread with
  | some t => if t < s.threads then s.access t (s.calls t) a else s
  | none => s.access 0 .idle a

/-! ## What the calls returned -/

def Result.conn? : Kind × Result → Option Nat
  | (_, .conn c) => some c
  | _ => none

def Result.value? : Kind × Result → Option Nat
  | (_, .value v) => some v
  | _ => none

def Result.frame? : Kind × Result → Option Nat
  | (_, .frame f) => some f
  | _ => none

/-- A call returned an item of its kind; of an eventfd, a value that is not 0. -/
def Fulfils : Kind × Result → Prop
  | (.accept, .conn _) | (.packet, .frame _) => True
  | (.eventfd, .value v) => v ≠ 0
  | _ => False

/-- What the calls have returned with, so far: each an item of its own. -/
structure Fulfilled (s : State) : Prop where
  each : ∀ e ∈ s.returned, Fulfils e
  conns : (s.returned.filterMap Result.conn?).Nodup
  frames : (s.returned.filterMap Result.frame?).Nodup
  values : (s.returned.filterMap Result.value?).sum + s.counter = s.written

def Place.holds : Place → Option Nat
  | .popped c => some c
  | _ => none

def Place.saw : Place → Option Kind
  | .woken k => some k
  | _ => none

/-- No other call stands between its look, which saw an item of the kind, and its take. -/
def Alone (s : State) (t : Nat) (k : Kind) : Prop := ∀ j < s.threads, j ≠ t → s.calls j ≠ .woken k

instance (s : State) (t : Nat) (k : Kind) : Decidable (Alone s t k) :=
  inferInstanceAs (Decidable (∀ j < _, _))

/-- The steps that leave every taker its item: no call takes one, at its start or after its wait,
between another call's look and its take; a descriptor can be had, and no timeout ends a wait. -/
def Kept (s : State) : Act → Prop
  | .call t k => s.calls t = .idle → Alone s t k
  | .take t => ∀ k ∈ (s.calls t).saw, Alone s t k
  | .reserveFd t ok => ∀ _ ∈ (s.calls t).holds, ok = true
  | .expire t => s.calls t ≠ .waiting .packet
  | _ => True

instance Kept.decidable (s : State) : ∀ a, Decidable (Kept s a)
  | .call .. => inferInstanceAs (Decidable (_ → _))
  | .take _ | .reserveFd .. => inferInstanceAs (Decidable (∀ _ ∈ _, _))
  | .expire _ => inferInstanceAs (Decidable (_ ≠ _))
  | .look _ | .connect | .frame | .write _ => .isTrue trivial

/-! ## What was seen is there -/

/-- A call that saw an item, and has not taken it, would find one. -/
def Seen (s : State) : Prop := ∀ j < s.threads, ∀ k, s.calls j = .woken k → s.has k = true

section Seen

variable {s s' : State} {t : Nat}

/-- A step that wakes nobody, and takes nothing that one of the woken calls saw. -/
theorem Seen.mono (h : Seen s) (hthreads : s'.threads = s.threads)
    (hcalls : ∀ j < s.threads, ∀ k, s'.calls j = .woken k →
      s.calls j = .woken k ∧ (s.has k = true → s'.has k = true)) : Seen s' := by
  intro j hj k hwoken
  rw [hthreads] at hj
  obtain ⟨hbefore, hhas⟩ := hcalls j hj k hwoken
  exact hhas (h j hj k hbefore)

/-- One call goes on to a place at which it has seen nothing, or no more than there is. -/
theorem Seen.goto (h : Seen s) {p : Place} (hp : ∀ k ∈ p.saw, s.has k = true) :
    Seen (s.goto t p) := by
  intro j hj k hwoken
  change update s.calls t p j = .woken k at hwoken
  by_cases hjt : j = t
  · subst hjt
    rw [update_self] at hwoken
    exact hp k (by rw [hwoken]; rfl)
  · rw [update_of_ne hjt] at hwoken
    exact h j hj k hwoken

theorem Seen.finish (h : Seen s) (k : Kind) (r : Result) : Seen (s.finish t k r) :=
  Seen.goto (s := { s with returned := s.returned ++ [(k, r)] }) h nofun

theorem takeOne_frame {k : Kind} (htake : s.takeOne t k = some s') :
    s'.threads = s.threads ∧ (∃ p : Place, p.saw = none ∧ s'.calls = update s.calls t p) ∧
      ∀ k' ≠ k, s'.has k' = s.has k' := by
  have hother : ∀ k' ≠ k, s'.has k' = s.has k' := by
    intro k' hne
    cases k <;> cases k' <;> simp only [State.takeOne] at htake <;> split at htake <;>
      first
        | cases htake; rfl
        | exact absurd rfl hne
        | cases htake
  cases k <;> simp only [State.takeOne] at htake <;> split at htake <;> cases htake
  · exact ⟨rfl, ⟨_, rfl, rfl⟩, hother⟩
  · exact ⟨rfl, ⟨_, rfl, rfl⟩, hother⟩
  · exact ⟨rfl, ⟨_, rfl, rfl⟩, hother⟩

/-- A call that takes an item alone leaves the others theirs: they saw items of other kinds. -/
theorem Seen.takeOne (h : Seen s) {k : Kind} (halone : Alone s t k)
    (htake : s.takeOne t k = some s') : Seen s' := by
  obtain ⟨hthreads, ⟨p, hp, hcalls⟩, hother⟩ := takeOne_frame htake
  refine h.mono hthreads fun j hj k' hwoken => ?_
  rw [hcalls] at hwoken
  by_cases hjt : j = t
  · subst hjt
    rw [update_self] at hwoken
    rw [hwoken] at hp
    cases hp
  · rw [update_of_ne hjt] at hwoken
    refine ⟨hwoken, fun hhas => ?_⟩
    rw [hother k' (by rintro rfl; exact halone j hj hjt hwoken)]
    exact hhas

/-- What a call saw is there until it takes it. -/
theorem Seen.access (h : Seen s) {a : Act} (ha : a.thread = some t) (hkept : Kept s a) :
    Seen (s.access t (s.calls t) a) := by
  cases a <;> cases ha <;> simp only [State.access]
  case call k =>
    split
    · rename_i hp
      cases htake : s.takeOne t k with
      | none => exact h.goto nofun
      | some s' => exact h.takeOne (hkept hp) htake
    · exact h
  case look =>
    split
    · rename_i k hp
      split
      · -- the one step that wakes a call, on what the queue holds
        rename_i hhas
        exact h.goto fun k' hk' => by cases hk'; exact hhas
      · exact h
    · exact h
  case take =>
    split
    · rename_i k hp
      cases htake : s.takeOne t k with
      | none => exact h.finish k _
      | some s' => exact h.takeOne (hkept k (by rw [hp]; rfl)) htake
    · exact h
  case reserveFd ok =>
    split
    · rename_i c hp
      have hok := hkept c (by rw [hp]; rfl)
      rw [if_pos hok]
      exact h.finish _ _
    · exact h
  case expire =>
    split
    · exact h.finish _ _
    · exact h

/-- What arrives is added to what was seen. -/
theorem Seen.arrive (h : Seen s) {a : Act} (ha : a.thread = none) : Seen (s.access 0 .idle a) := by
  cases a <;> cases ha <;> simp only [State.access]
  case connect =>
    refine h.mono rfl fun j _ k hwoken => ⟨hwoken, fun hhas => ?_⟩
    cases k <;> simp_all [State.has]
  case frame =>
    refine h.mono rfl fun j _ k hwoken => ⟨hwoken, fun hhas => ?_⟩
    cases k <;> simp_all [State.has]
  case write add =>
    split
    · refine h.mono rfl fun j _ k hwoken => ⟨hwoken, fun hhas => ?_⟩
      cases k <;> simp_all [State.has]
    · exact h

theorem Seen.step (h : Seen s) {a : Act} (hkept : Kept s a) : Seen (s.step a) := by
  unfold State.step
  split
  · split
    · exact h.access ‹_› hkept
    · exact h
  · exact h.arrive ‹_›

end Seen

/-! ## The invariant -/

open Holders

structure Inv (s : State) : Prop where
  held : Held s.taken (s.returned.filterMap Result.conn?) fun t => (s.calls t).holds
  queue : s.taken ++ s.pending = List.range s.conns
  frames : s.returned.filterMap Result.frame? ++ s.rx = List.range s.frames
  values : (s.returned.filterMap Result.value?).sum + s.counter = s.written
  each : ∀ e ∈ s.returned, Fulfils e

theorem Inv.fulfilled {s : State} (h : Inv s) : Fulfilled s where
  each := h.each
  conns := h.held.nodup
  frames := by
    have hnodup : (List.range s.frames).Nodup := nodup_range
    rw [← h.frames] at hnodup
    exact (nodup_append.mp hnodup).1
  values := h.values

section Sections

variable {s : State} {t : Nat}

theorem holds_update (calls : Nat → Place) (t : Nat) (p : Place) :
    (fun j => (update calls t p j).holds) = update (fun j => (calls j).holds) t p.holds := by
  funext j
  by_cases hj : j = t
  · subst hj
    rw [update_self, update_self]
  · rw [update_of_ne hj, update_of_ne hj]

theorem Inv.goto (h : Inv s) {p : Place} (hp : p.holds = (s.calls t).holds) : Inv (s.goto t p) := by
  refine { h with held := ?_ }
  change Held s.taken (s.returned.filterMap Result.conn?) fun j =>
    (update s.calls t p j).holds
  rw [holds_update, hp, update_eq_self]
  exact h.held

theorem filterMap_snoc {β γ : Type} (f : β → Option γ) (l : List β) (e : β) :
    (l ++ [e]).filterMap f = l.filterMap f ++ (f e).toList := by
  rw [filterMap_append]
  cases hf : f e <;> simp [hf]

theorem Inv.finish {k : Kind} {r : Result} (hr : Fulfils (k, r))
    (heach : ∀ e ∈ s.returned, Fulfils e)
    (hheld : Held s.taken (s.returned.filterMap Result.conn? ++ (Result.conn? (k, r)).toList)
      (update (fun j => (s.calls j).holds) t none))
    (hqueue : s.taken ++ s.pending = List.range s.conns)
    (hframes : s.returned.filterMap Result.frame? ++ (Result.frame? (k, r)).toList ++ s.rx =
      List.range s.frames)
    (hvalues : (s.returned.filterMap Result.value?).sum + (Result.value? (k, r)).toList.sum +
      s.counter = s.written) : Inv (s.finish t k r) where
  held := by
    change Held s.taken ((s.returned ++ [_]).filterMap Result.conn?) fun j =>
      (update s.calls t .idle j).holds
    rw [holds_update, filterMap_snoc]
    exact hheld
  queue := hqueue
  frames := by
    change (s.returned ++ [_]).filterMap Result.frame? ++ s.rx = List.range s.frames
    rw [filterMap_snoc]
    exact hframes
  values := by
    change ((s.returned ++ [_]).filterMap Result.value?).sum + s.counter = s.written
    rw [filterMap_snoc, sum_append]
    exact hvalues
  each e he := by
    rcases mem_append.mp he with he | he
    · exact heach e he
    · rw [mem_singleton.mp he]
      exact hr

theorem Inv.held_same (h : Inv s) (hp : (s.calls t).holds = none) :
    Held s.taken (s.returned.filterMap Result.conn? ++ [])
      (update (fun j => (s.calls j).holds) t none) := by
  rw [append_nil, ← hp, update_eq_self]
  exact h.held

theorem Inv.accept (h : Inv s) (hp : (s.calls t).holds = none) {c : Nat}
    {pending : List Nat} (hpending : s.pending = c :: pending) :
    Inv ({ s with pending, taken := s.taken ++ [c] }.goto t (.popped c)) := by
  have hnodup : (s.taken ++ s.pending).Nodup := by
    rw [h.queue]
    exact nodup_range
  have hnew : c ∉ s.taken := fun hmem => by
    rw [hpending] at hnodup
    exact (nodup_append.mp hnodup).2.2 c hmem c mem_cons_self rfl
  refine ⟨?_, ?_, h.frames, h.values, h.each⟩
  · change Held (s.taken ++ [c]) _ fun j => (update s.calls t (.popped c) j).holds
    rw [holds_update]
    exact h.held.take hp hnew
  · change s.taken ++ [c] ++ pending = List.range s.conns
    rw [← h.queue, hpending, append_assoc]
    rfl

theorem Inv.readEvent (h : Inv s) (hp : (s.calls t).holds = none) {value : Nat} (hpos : value ≠ 0)
    (hle : value ≤ s.counter) :
    Inv ({ s with counter := s.counter - value }.finish t .eventfd (.value value)) := by
  refine Inv.finish hpos h.each (h.held_same hp) h.queue ?_ ?_
  · dsimp only [Result.frame?, Option.toList]
    rw [append_nil]
    exact h.frames
  · have hvalues := h.values
    dsimp only [Result.value?, Option.toList]
    rw [sum_singleton]
    omega

theorem Inv.readFrame (h : Inv s) (hp : (s.calls t).holds = none) {f : Nat} {rx : List Nat}
    (hrx : s.rx = f :: rx) : Inv ({ s with rx }.finish t .packet (.frame f)) := by
  refine Inv.finish trivial h.each (h.held_same hp) h.queue ?_ h.values
  have hframes := h.frames
  rw [hrx] at hframes
  rw [append_assoc]
  exact hframes

theorem Inv.takeOne (h : Inv s) (hp : (s.calls t).holds = none) {k : Kind}
    {s' : State} (htake : s.takeOne t k = some s') : Inv s' := by
  cases k with
  | accept =>
    simp only [State.takeOne] at htake
    split at htake
    · cases htake
    · cases htake
      exact h.accept hp ‹_›
  | eventfd =>
    simp only [State.takeOne] at htake
    split at htake
    · cases htake
    · rename_i hcounter
      cases htake
      refine h.readEvent hp ?_ ?_ <;> split <;> omega
  | packet =>
    simp only [State.takeOne] at htake
    split at htake
    · cases htake
    · cases htake
      exact h.readFrame hp ‹_›

theorem takeOne_isSome (s : State) (t : Nat) {k : Kind} (h : s.has k = true) :
    (s.takeOne t k).isSome := by
  cases k <;> simp only [State.has] at h <;> simp only [State.takeOne]
  case accept => split <;> simp_all
  case eventfd => rw [if_neg (Nat.pos_iff_ne_zero.mp (of_decide_eq_true h))]; rfl
  case packet => split <;> simp_all

theorem Inv.delivered (h : Inv s) {c : Nat} (hp : s.calls t = .popped c) :
    Inv (s.finish t .accept (.conn c)) := by
  refine Inv.finish trivial h.each (h.held.settle (by rw [hp]; rfl)) h.queue ?_ h.values
  dsimp only [Result.frame?, Option.toList]
  rw [append_nil]
  exact h.frames

end Sections

/-! ## Runs -/

theorem Inv.access {s : State} (h : Inv s) (hseen : Seen s) {t : Nat} (ht : t < s.threads) {a : Act}
    (ha : a.thread = some t) (hkept : Kept s a) : Inv (s.access t (s.calls t) a) := by
  cases a <;> cases ha <;> simp only [State.access]
  case call k =>
    split
    · rename_i hp
      have hnone : (s.calls t).holds = none := by rw [hp]; rfl
      -- an item is there at once, or the call waits
      cases htake : s.takeOne t k with
      | none => exact h.goto hnone.symm
      | some s' => exact h.takeOne hnone htake
    · exact h
  case look =>
    split
    · rename_i k hp
      split
      · exact h.goto (by rw [hp]; rfl)
      · exact h
    · exact h
  case take =>
    split
    · rename_i k hp
      -- the item seen is still there
      have hsome := takeOne_isSome s t (hseen t ht k hp)
      obtain ⟨s', htake⟩ := Option.isSome_iff_exists.mp hsome
      rw [htake]
      exact h.takeOne (by rw [hp]; rfl) htake
    · exact h
  case reserveFd ok =>
    split
    · rename_i c hp
      have hok := hkept c (by rw [hp]; rfl)
      rw [if_pos hok]
      exact h.delivered hp
    · exact h
  case expire =>
    split
    · rename_i hp
      exact absurd hp hkept
    · exact h

theorem Inv.step {s : State} (h : Inv s) (hseen : Seen s) {a : Act} (hkept : Kept s a) :
    Inv (s.step a) := by
  unfold State.step
  split
  · split
    · exact h.access hseen ‹_› ‹_› hkept
    · exact h
  · rename_i ha
    cases a with
    | connect =>
      refine { h with queue := ?_ }
      change s.taken ++ (s.pending ++ [s.conns]) = List.range (s.conns + 1)
      rw [← append_assoc, h.queue, range_succ]
    | frame =>
      refine { h with frames := ?_ }
      change s.returned.filterMap Result.frame? ++ (s.rx ++ [s.frames]) = List.range (s.frames + 1)
      rw [← append_assoc, h.frames, range_succ]
    | write add =>
      simp only [State.access]
      split
      · refine { h with values := ?_ }
        have hvalues := h.values
        dsimp only
        omega
      · exact h
    | call t k => cases ha
    | look t => cases ha
    | take t => cases ha
    | reserveFd t ok => cases ha
    | expire t => cases ha

theorem Inv.init (threads : Nat) (semaphore : Bool) : Inv { threads, semaphore } where
  held := ⟨nofun, nofun, nodup_nil, nofun, nofun⟩
  queue := rfl
  frames := rfl
  values := rfl
  each := nofun

/-- **Every taker gets an item of its own** in the runs in which no call takes an item between
another call's look and its take. -/
theorem takers_fulfilled (threads : Nat) (semaphore : Bool) (as : List Act)
    (h : Runs.Along State.step Kept { threads, semaphore } as) :
    Runs.Always State.step Fulfilled { threads, semaphore } as := by
  have hstep : ∀ s a, Inv s ∧ Seen s → Kept s a → Inv (s.step a) ∧ Seen (s.step a) :=
    fun s a hs hkept => ⟨hs.1.step hs.2 hkept, hs.2.step hkept⟩
  have hinit : Inv { threads, semaphore } ∧ Seen { threads, semaphore } :=
    ⟨Inv.init threads semaphore, nofun⟩
  exact (Runs.always_of_along hstep hinit h).imp fun s hs => hs.1.fulfilled

/-- Two accepts, two reads of the eventfd and a read of the packet socket, each woken for an item.
-/
theorem takers_fulfilled_run :
    let as := [.call 0 .accept, .call 1 .accept, .connect, .look 0, .take 0, .connect, .look 1,
      .reserveFd 0 true, .take 1, .reserveFd 1 true, .call 0 .eventfd, .call 1 .packet, .write 5,
      .look 0, .frame, .take 0, .look 1, .take 1, .write 2, .call 1 .eventfd]
    Runs.Along State.step Kept { threads := 2 } as ∧
      Runs.Always State.step Fulfilled { threads := 2 } as ∧
      (as.foldl State.step { threads := 2 }).returned = [(.accept, .conn 0), (.accept, .conn 1),
        (.eventfd, .value 5), (.packet, .frame 0), (.eventfd, .value 2)] := by
  intro as
  have hkept : Runs.Along State.step Kept { threads := 2 } as := by decide +kernel
  exact ⟨hkept, takers_fulfilled 2 false as hkept, by decide +kernel⟩

/-- Two calls of each kind wait, one item arrives, both see it, and the second finds it gone: the
accept fails, the eventfd reads 0 and the packet socket's read is declined. -/
theorem empty_handed :
    let both (k : Kind) (arrives : Act) : List Act :=
      [.call 0 k, .call 1 k, arrives, .look 0, .look 1, .take 0, .take 1]
    let s := (both .accept .connect ++ [Act.reserveFd 0 true] ++ both .eventfd (.write 3) ++
      both .packet .frame).foldl State.step { threads := 2 }
    s.returned = [(.accept, .again), (.accept, .conn 0), (.eventfd, .value 3), (.eventfd, .value 0),
      (.packet, .frame 0), (.packet, .declined)] ∧ ¬ Fulfilled s := by
  intro both s
  have hreturned : s.returned = [(.accept, .again), (.accept, .conn 0), (.eventfd, .value 3),
      (.eventfd, .value 0), (.packet, .frame 0), (.packet, .declined)] := by decide +kernel
  refine ⟨hreturned, fun h => ?_⟩
  have := h.each (.eventfd, .value 0) (by rw [hreturned]; simp)
  exact this rfl

end Snare.Takers
