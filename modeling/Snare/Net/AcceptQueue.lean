import Snare.Lib.Counting
import Snare.Lib.Holders
import Snare.Lib.Runs
import Snare.Net.Listener

/-!
# The accept queue conserves its connections

Each part of the invariant is about one feature of the calls' places and the lists it goes with, so
that a step that leaves the feature alone leaves the part alone (`Inv.rest`).

* **`Counted`**: the count of occupied entries, in every run;
* **`InOrder`**, **`Fresh`**, `Holders.Held`, and what the close leaves — where each step is `Kept`;
* **`accept_queue_conserved`**: what those runs have.

A connection queued after the close drained the queue is never accepted and never reset
(`queued_after_close`).
-/

namespace Snare.Listener

open Function Holders List

/-! ## What a place holds -/

def Place.made : Place → Option Conn
  | .established conn => some conn
  | _ => none

def Place.holds : Place → Option Conn
  | .popped conn | .reserved conn | .refused conn | .freed conn => some conn
  | _ => none

def Place.resets : Place → List Conn
  | .resetting orphans => orphans
  | _ => []

def Place.closes : Place → Bool
  | .closing | .withdrawn => true
  | _ => false

def Place.refuses : Place → Option Conn
  | .refused conn => some conn
  | _ => none

def Place.saw : Place → Option Nat
  | .checked used => some used
  | _ => none

/-! ## The count -/

/-- The occupied entries are those reserved, queued, popped, and drained by the close. -/
def Counted (s : State) : Prop :=
  s.occupied = s.reservations + s.pending.length + s.popped + s.orphaned.length

section Counted

variable {s : State} {t : Nat}

theorem goto_reservations (ht : t < s.threads) (q : Place) :
    (s.goto t q).reservations + (if (s.calls t).reserves = true then 1 else 0) =
      s.reservations + (if q.reserves = true then 1 else 0) :=
  Counting.count_update (fun p : Place => p.reserves = true) ht q

theorem goto_popped (ht : t < s.threads) (q : Place) :
    (s.goto t q).popped + (if (s.calls t).pops = true then 1 else 0) =
      s.popped + (if q.pops = true then 1 else 0) :=
  Counting.count_update (fun p : Place => p.pops = true) ht q

theorem Counted.goto (h : Counted s) (ht : t < s.threads) {s' : State} {q : Place}
    (hthreads : s'.threads = s.threads) (hcalls : s'.calls = s.calls)
    (hcount : s'.occupied + (if (s.calls t).reserves = true then 1 else 0) +
        (if (s.calls t).pops = true then 1 else 0) + s.pending.length + s.orphaned.length =
      s.occupied + (if q.reserves = true then 1 else 0) + (if q.pops = true then 1 else 0) +
        s'.pending.length + s'.orphaned.length) : Counted (s'.goto t q) := by
  have hr := goto_reservations (s := s') (hthreads ▸ ht) q
  have hp := goto_popped (s := s') (hthreads ▸ ht) q
  have hreservations : s'.reservations = s.reservations := by
    unfold State.reservations
    rw [hthreads, hcalls]
  have hpopped : s'.popped = s.popped := by
    unfold State.popped
    rw [hthreads, hcalls]
  rw [hcalls, hreservations] at hr
  rw [hcalls, hpopped] at hp
  unfold Counted at h ⊢
  change s'.occupied = (s'.goto t q).reservations + s'.pending.length + (s'.goto t q).popped +
    s'.orphaned.length
  omega

theorem reservations_pos (ht : t < s.threads) (hp : (s.calls t).reserves = true) :
    0 < s.reservations :=
  Counting.count_pos (fun p : Place => p.reserves = true) ht hp

theorem popped_pos (ht : t < s.threads) (hp : (s.calls t).pops = true) : 0 < s.popped :=
  Counting.count_pos (fun p : Place => p.pops = true) ht hp

end Counted

/-! ## The parts of the invariant -/

/-- The connections queued are those taken, then those drained, then those waiting. -/
structure InOrder (queued taken orphaned pending : List Conn) (drained : Bool) : Prop where
  order : queued = taken ++ orphaned ++ pending
  after : drained = true → pending = []
  before : drained = false → orphaned = []
  nodup : queued.Nodup

/-- A connection that is not queued yet is a new one, and one call's. -/
structure Fresh (queued : List Conn) (conns : Nat) (made : Nat → Option Conn) : Prop where
  old : ∀ c ∈ queued, c < conns
  new : ∀ t c, made t = some c → c < conns ∧ c ∉ queued
  once : Once made

structure Inv (s : State) : Prop where
  counted : Counted s
  room : ∀ t < s.threads, ∀ used ∈ (s.calls t).saw, used < s.capacity
  inOrder : InOrder s.queued s.taken s.orphaned s.pending s.drained
  fresh : Fresh s.queued s.conns fun t => (s.calls t).made
  held : Held s.taken s.accepted fun t => (s.calls t).holds
  idle : ∀ t, s.threads ≤ t → s.calls t = .idle
  orphans : ∀ c ∈ s.orphaned, c ∈ s.reset ∨ ∃ t < s.threads, c ∈ (s.calls t).resets
  closing : s.isOpen = false → s.drained = true ∨ ∃ t < s.threads, (s.calls t).closes = true

/-- The steps that keep the queue's promises: the backlog is not lowered to what a reservation has
checked, nothing is queued or put back once the close has drained the queue, and only the connection
taken last is put back. -/
def Kept (s : State) : Act → Prop
  | .listen capacity => ∀ t < s.threads, ∀ used ∈ (s.calls t).saw, used < capacity
  | .queue t => ∀ _ ∈ (s.calls t).made, s.drained = false
  | .pushFront t => ∀ conn ∈ (s.calls t).refuses, s.drained = false ∧ s.taken.getLast? = some conn
  | _ => True

instance Kept.decidable (s : State) : ∀ a, Decidable (Kept s a)
  | .listen _ => inferInstanceAs (Decidable (∀ _ < _, _))
  | .queue _ | .pushFront _ => inferInstanceAs (Decidable (∀ _ ∈ _, _))
  | .find _ | .load _ | .check _ | .exchange _ _ | .establish _ | .abandon _ | .accept _ | .pop _
  | .leave _ | .reserveFd _ _ | .free _ | .deliver _ | .close _ | .unlisten _ | .drain _
  | .resetNext _ => .isTrue trivial

/-! ## One call moves on -/

section Move

variable {s s' : State} {t : Nat} {p q : Place}

theorem feature_update {β : Type} (f : Place → β) (calls : Nat → Place) (t : Nat) (q : Place) :
    (fun j => f (update calls t q j)) = update (fun j => f (calls j)) t (f q) := by
  funext j
  by_cases hj : j = t
  · subst hj
    rw [update_self, update_self]
  · rw [update_of_ne hj, update_of_ne hj]

theorem exists_goto {P : Place → Prop} (ht : t < s.threads)
    (h : P q ∨ ∃ j < s.threads, j ≠ t ∧ P (s.calls j)) :
    ∃ j < s.threads, P (update s.calls t q j) := by
  rcases h with h | ⟨j, hj, hjt, hP⟩
  · exact ⟨t, ht, by rw [update_self]; exact h⟩
  · exact ⟨j, hj, by rw [update_of_ne hjt]; exact hP⟩

theorem or_exists {P : Place → Prop} (h : P (s.calls t) → P q)
    (hex : ∃ j < s.threads, P (s.calls j)) : P q ∨ ∃ j < s.threads, j ≠ t ∧ P (s.calls j) := by
  obtain ⟨j, hj, hP⟩ := hex
  by_cases hjt : j = t
  · subst hjt
    exact .inl (h hP)
  · exact .inr ⟨j, hj, hjt, hP⟩

theorem Inv.goto (h : Inv s) (ht : t < s.threads) (hthreads : s'.threads = s.threads)
    (hcalls : s'.calls = s.calls) (hcapacity : s'.capacity = s.capacity)
    (hcounted : s'.occupied + (if (s.calls t).reserves = true then 1 else 0) +
        (if (s.calls t).pops = true then 1 else 0) + s.pending.length + s.orphaned.length =
      s.occupied + (if q.reserves = true then 1 else 0) + (if q.pops = true then 1 else 0) +
        s'.pending.length + s'.orphaned.length) (hsaw : ∀ used ∈ q.saw, used < s.capacity)
    (hinOrder : InOrder s'.queued s'.taken s'.orphaned s'.pending s'.drained)
    (hfresh : Fresh s'.queued s'.conns (update (fun j => (s.calls j).made) t q.made))
    (hheld : Held s'.taken s'.accepted (update (fun j => (s.calls j).holds) t q.holds))
    (horphans : ∀ c ∈ s'.orphaned, c ∈ s'.reset ∨ c ∈ q.resets ∨
      ∃ j < s.threads, j ≠ t ∧ c ∈ (s.calls j).resets)
    (hclosing : s'.isOpen = false → s'.drained = true ∨ q.closes = true ∨
      ∃ j < s.threads, j ≠ t ∧ (s.calls j).closes = true) : Inv (s'.goto t q) where
  counted := h.counted.goto ht hthreads hcalls hcounted
  room j hj used hused := by
    change used ∈ (update s'.calls t q j).saw at hused
    change used < s'.capacity
    rw [hcapacity]
    rw [hcalls] at hused
    by_cases hjt : j = t
    · subst hjt
      rw [update_self] at hused
      exact hsaw used hused
    · rw [update_of_ne hjt] at hused
      exact h.room j (hthreads ▸ hj) used hused
  inOrder := hinOrder
  fresh := by
    change Fresh _ _ fun j => (update s'.calls t q j).made
    rw [hcalls, feature_update Place.made]
    exact hfresh
  held := by
    change Held _ _ fun j => (update s'.calls t q j).holds
    rw [hcalls, feature_update Place.holds]
    exact hheld
  idle j hj := by
    have hjt : j ≠ t := fun hjt => Nat.not_lt.mpr hj (hthreads ▸ hjt ▸ ht)
    change update s'.calls t q j = .idle
    rw [update_of_ne hjt, hcalls]
    exact h.idle j (hthreads ▸ hj)
  orphans c hc := by
    change _ ∨ ∃ j < s'.threads, c ∈ (update s'.calls t q j).resets
    rw [hcalls, hthreads]
    exact (horphans c hc).imp_right fun hor => exists_goto (P := fun p => c ∈ p.resets) ht hor
  closing hopen := by
    change _ ∨ ∃ j < s'.threads, (update s'.calls t q j).closes = true
    rw [hcalls, hthreads]
    exact (hclosing hopen).imp_right fun hor =>
      exists_goto (P := fun p => p.closes = true) ht hor

section Same

variable {p : Place} (h : Inv s) (hp : s.calls t = p)
include h hp

theorem Inv.fresh_same (hmade : q.made = p.made) :
    Fresh s.queued s.conns (update (fun j => (s.calls j).made) t q.made) := by
  rw [hmade, ← hp, update_eq_self]
  exact h.fresh

theorem Inv.held_same (hholds : q.holds = p.holds) :
    Held s.taken s.accepted (update (fun j => (s.calls j).holds) t q.holds) := by
  rw [hholds, ← hp, update_eq_self]
  exact h.held

theorem Inv.orphans_same (hresets : ∀ c ∈ p.resets, c ∈ q.resets) :
    ∀ c ∈ s.orphaned, c ∈ s.reset ∨ c ∈ q.resets ∨
      ∃ j < s.threads, j ≠ t ∧ c ∈ (s.calls j).resets := fun c hc =>
  (h.orphans c hc).imp_right fun hex => or_exists (P := fun p => c ∈ p.resets) (hp ▸ hresets c) hex

theorem Inv.closing_same (hcloses : p.closes = true → q.closes = true) :
    s.isOpen = false → s.drained = true ∨ q.closes = true ∨
      ∃ j < s.threads, j ≠ t ∧ (s.calls j).closes = true := fun hopen =>
  (h.closing hopen).imp_right fun hex =>
    or_exists (P := fun p => p.closes = true) (hp ▸ hcloses) hex

end Same

end Move

/-! ## The accesses -/

section Accesses

variable {s : State} {t : Nat}

theorem Inv.establish (h : Inv s) (ht : t < s.threads) (hp : s.calls t = .admitted) :
    Inv ({ s with conns := s.conns + 1 }.goto t (.established s.conns)) := by
  refine h.goto ht rfl rfl rfl (by rw [hp]; rfl) nofun h.inOrder ?_ (h.held_same hp rfl)
    (h.orphans_same hp nofun) (h.closing_same hp nofun)
  -- the new connection is none of the old ones
  refine ⟨fun c hc => (h.fresh.old c hc).trans (Nat.lt_succ_self _), fun j c hj => ?_,
    h.fresh.once.give t fun j hj => Nat.lt_irrefl _ (h.fresh.new j _ hj).1⟩
  by_cases hjt : j = t
  · subst hjt
    rw [update_self] at hj
    cases hj
    exact ⟨Nat.lt_succ_self _, fun hmem => Nat.lt_irrefl _ (h.fresh.old _ hmem)⟩
  · rw [update_of_ne hjt] at hj
    exact ⟨(h.fresh.new j c hj).1.trans (Nat.lt_succ_self _), (h.fresh.new j c hj).2⟩

theorem Inv.recount (h : Inv s) (ht : t < s.threads) {p q : Place} {n : Nat} (hp : s.calls t = p)
    (hcount : n + (if p.reserves = true then 1 else 0) + (if p.pops = true then 1 else 0) =
      s.occupied + (if q.reserves = true then 1 else 0) + (if q.pops = true then 1 else 0))
    (hsaw : q.saw = none) (hmade : q.made = p.made) (hholds : q.holds = p.holds)
    (hresets : p.resets = []) (hcloses : p.closes = false) :
    Inv ({ s with occupied := n }.goto t q) := by
  subst hp
  refine h.goto ht rfl rfl rfl ?_ (by rw [hsaw]; nofun) h.inOrder (h.fresh_same rfl hmade)
    (h.held_same rfl hholds) (h.orphans_same rfl (by rw [hresets]; nofun)) (h.closing_same rfl ?_)
  · dsimp only
    omega
  · rw [hcloses]
    nofun

/-- A call moves on that looks at the queue only, and holds what it held. -/
theorem Inv.rest (h : Inv s) (ht : t < s.threads) {p q : Place} (hp : s.calls t = p)
    (hsame : (q.saw, q.reserves, q.pops, q.made, q.holds, p.resets, p.closes) =
      (none, p.reserves, p.pops, p.made, p.holds, [], false)) : Inv (s.goto t q) := by
  simp only [Prod.mk.injEq] at hsame
  obtain ⟨hsaw, hreserves, hpops, hmade, hholds, hresets, hcloses⟩ := hsame
  exact h.recount ht hp (by rw [hreserves, hpops]) hsaw hmade hholds hresets hcloses

theorem Inv.fetchSub (h : Inv s) (ht : t < s.threads)
    (hp : (s.calls t).reserves = true ∨ (s.calls t).pops = true) :
    0 < s.occupied ∧ s.fetchSub = { s with occupied := s.occupied - 1 } := by
  have hpos : 0 < s.occupied := by
    have hcounted := h.counted
    unfold Counted at hcounted
    rcases hp with hp | hp
    · have := reservations_pos ht hp
      omega
    · have := popped_pos ht hp
      omega
  refine ⟨hpos, ?_⟩
  unfold State.fetchSub
  rw [if_neg hpos.ne']

theorem Inv.abandon (h : Inv s) (ht : t < s.threads) (hp : s.calls t = .admitted) :
    Inv (s.fetchSub.goto t .idle) := by
  obtain ⟨hpos, heq⟩ := h.fetchSub ht (.inl (by rw [hp]; rfl))
  rw [heq]
  exact h.recount ht hp (Nat.sub_add_cancel hpos) rfl rfl rfl rfl rfl

variable {conn : Conn}

section

variable (h : Inv s)
include h

section

variable (ht : t < s.threads)
include ht

theorem Inv.free (hp : s.calls t = .reserved conn) :
    Inv (s.fetchSub.goto t (.freed conn)) := by
  obtain ⟨hpos, heq⟩ := h.fetchSub ht (.inr (by rw [hp]; rfl))
  rw [heq]
  exact h.recount ht hp (Nat.sub_add_cancel hpos) rfl rfl rfl rfl rfl

theorem Inv.queue (hp : s.calls t = .established conn)
    (hdrained : s.drained = false) :
    Inv ({ s with
      pending := s.pending ++ [conn], queued := s.queued ++ [conn] }.goto t .idle) := by
  have hmade : (s.calls t).made = some conn := by rw [hp]; rfl
  obtain ⟨hlt, hnew⟩ := h.fresh.new t conn hmade
  refine h.goto ht rfl rfl rfl ?_ nofun ⟨?_, fun hd => ?_, h.inOrder.before, ?_⟩ ?_
    (h.held_same hp rfl) (h.orphans_same hp nofun)
    (h.closing_same hp nofun)
  · simp only [hp, Place.reserves, Place.pops, Bool.false_eq_true, if_true, if_false,
      length_append, length_singleton]
    omega
  · rw [h.inOrder.order, append_assoc]
  · rw [hdrained] at hd
    cases hd
  · exact nodup_append.mpr ⟨h.inOrder.nodup, nodup_singleton conn,
      fun a ha b hb hab => hnew (mem_singleton.mp hb ▸ hab ▸ ha)⟩
  · refine ⟨fun c hc => ?_, fun j c hj => ?_, h.fresh.once.drop t⟩
    · rcases mem_append.mp hc with hc | hc
      · exact h.fresh.old c hc
      · rw [mem_singleton.mp hc]
        exact hlt
    · obtain ⟨hjt, hj⟩ := update_none hj
      obtain ⟨hc, hout⟩ := h.fresh.new j c hj
      refine ⟨hc, fun hmem => ?_⟩
      rcases mem_append.mp hmem with hmem | hmem
      · exact hout hmem
      · rw [mem_singleton.mp hmem] at hj
        exact hjt (h.fresh.once j t conn hj hmade)

theorem Inv.pop {pending : List Conn}
    (hp : s.calls t = .looking) (hpending : s.pending = conn :: pending) :
    Inv ({ s with pending, taken := s.taken ++ [conn] }.goto t (.popped conn)) := by
  -- the queue has not been drained, so nothing stands between the taken and the waiting
  have hdrained : s.drained = false := by
    rw [← Bool.not_eq_true]
    intro hd
    rw [h.inOrder.after hd] at hpending
    cases hpending
  have horphaned := h.inOrder.before hdrained
  have horder : s.queued = s.taken ++ conn :: pending := by
    rw [h.inOrder.order, horphaned, append_nil, hpending]
  have hnodup := h.inOrder.nodup
  rw [horder, nodup_append] at hnodup
  have hnew : conn ∉ s.taken := fun hmem => hnodup.2.2 conn hmem conn mem_cons_self rfl
  refine h.goto ht rfl rfl rfl ?_ nofun ⟨?_, fun hd => ?_, h.inOrder.before, h.inOrder.nodup⟩
    (h.fresh_same hp rfl) ?_ (h.orphans_same hp nofun)
    (h.closing_same hp nofun)
  · simp only [hp, hpending, Place.reserves, Place.pops, Bool.false_eq_true, if_true, if_false,
      length_cons]
    omega
  · rw [horder, horphaned]
    simp
  · rw [hdrained] at hd
    cases hd
  · exact h.held.take (by rw [hp]; rfl) hnew

theorem Inv.pushFront (hp : s.calls t = .refused conn)
    (hdrained : s.drained = false) (hlast : s.taken.getLast? = some conn) :
    Inv ({ s with
      pending := conn :: s.pending, taken := s.taken.erase conn }.goto t .idle) := by
  obtain ⟨taken, htaken⟩ := getLast?_eq_some_iff.mp hlast
  have horphaned := h.inOrder.before hdrained
  have horder : s.queued = taken ++ conn :: s.pending := by
    rw [h.inOrder.order, horphaned, htaken]
    simp
  have hnodup := h.inOrder.nodup
  rw [horder, nodup_append] at hnodup
  have hout : conn ∉ taken := fun hmem => hnodup.2.2 conn hmem conn mem_cons_self rfl
  have herase : s.taken.erase conn = taken := by
    rw [htaken, erase_append_right _ hout]
    simp
  have hholds : (s.calls t).holds = some conn := by rw [hp]; rfl
  rw [herase]
  refine h.goto ht rfl rfl rfl ?_ nofun ⟨?_, fun hd => ?_, h.inOrder.before, h.inOrder.nodup⟩
    (h.fresh_same hp rfl) ?_ (h.orphans_same hp nofun)
    (h.closing_same hp nofun)
  · simp only [hp, Place.reserves, Place.pops, Bool.false_eq_true, if_true, if_false,
      length_cons]
    omega
  · rw [horder, horphaned, append_nil]
  · rw [hdrained] at hd
    cases hd
  · exact Held.putBack (htaken ▸ h.held) hholds hout

theorem Inv.deliver (hp : s.calls t = .freed conn) :
    Inv ({ s with accepted := s.accepted ++ [conn] }.goto t .idle) := by
  refine h.goto ht rfl rfl rfl (by rw [hp]; rfl) nofun h.inOrder (h.fresh_same hp rfl) ?_
    (h.orphans_same hp nofun) (h.closing_same hp nofun)
  exact h.held.settle (by rw [hp]; rfl)

theorem Inv.drain (hp : s.calls t = .withdrawn) :
    Inv ({ s with
      pending := [], orphaned := s.orphaned ++ s.pending, drained := true }.goto t
        (.resetting s.pending)) := by
  refine h.goto ht rfl rfl rfl ?_ nofun ⟨?_, fun _ => rfl, nofun, h.inOrder.nodup⟩
    (h.fresh_same hp rfl) (h.held_same hp rfl) (fun c hc => ?_)
    fun _ => .inl rfl
  · simp only [hp, Place.reserves, Place.pops, Bool.false_eq_true, if_false, length_append,
      length_nil]
    omega
  · rw [h.inOrder.order]
    simp
  · rcases mem_append.mp hc with hc | hc
    · exact h.orphans_same (q := .resetting s.pending) hp nofun c hc
    · exact .inr (.inl hc)

theorem Inv.resetNext {orphans : List Conn}
    (hp : s.calls t = .resetting (conn :: orphans)) :
    Inv ({ s with reset := s.reset ++ [conn] }.goto t (.resetting orphans)) := by
  refine h.goto ht rfl rfl rfl (by rw [hp]; rfl) nofun h.inOrder (h.fresh_same hp rfl)
    (h.held_same hp rfl) (fun c hc => ?_) (h.closing_same hp nofun)
  rcases h.orphans c hc with hreset | ⟨j, hj, hjc⟩
  · exact .inl (mem_append_left _ hreset)
  · by_cases hjt : j = t
    · subst hjt
      rw [hp] at hjc
      rcases mem_cons.mp hjc with rfl | hjc
      · exact .inl (mem_append_right _ (mem_singleton_self _))
      · exact .inr (.inl hjc)
    · exact .inr (.inr ⟨j, hj, hjt, hjc⟩)

theorem Inv.exchange {used : Nat} (hp : s.calls t = .checked used)
    (hused : s.occupied = used) : Inv ({ s with occupied := used + 1 }.goto t .admitted) :=
  h.recount ht hp (by rw [hused]; rfl) rfl rfl rfl rfl rfl

theorem Inv.check {used : Nat} (hp : s.calls t = .loaded used)
    (hroom : used < s.capacity) : Inv (s.goto t (.checked used)) := by
  refine h.goto ht rfl rfl rfl (by rw [hp]; rfl) (fun u hu => ?_) h.inOrder
    (h.fresh_same hp rfl) (h.held_same hp rfl)
    (h.orphans_same hp nofun) (h.closing_same hp nofun)
  cases hu
  exact hroom

end

theorem Inv.listen {capacity : Nat} (hkept : Kept s (.listen capacity)) :
    Inv { s with capacity } :=
  { h with room := hkept }

theorem Inv.close (ht : t < s.threads) (hp : s.calls t = .idle) :
    Inv ({ s with isOpen := false }.goto t .closing) :=
  h.goto ht rfl rfl rfl (by rw [hp]; rfl) nofun h.inOrder (h.fresh_same hp rfl)
    (h.held_same hp rfl) (h.orphans_same hp nofun) fun _ => .inr (.inl rfl)

theorem Inv.unlisten (ht : t < s.threads) (hp : s.calls t = .closing) :
    Inv ({ s with registered := false }.goto t .withdrawn) :=
  h.goto ht rfl rfl rfl (by rw [hp]; rfl) nofun h.inOrder (h.fresh_same hp rfl)
    (h.held_same hp rfl) (h.orphans_same hp nofun)
    (h.closing_same hp fun _ => rfl)

end

end Accesses

/-! ## Runs -/

variable {s : State} {a : Act}

theorem Inv.access (h : Inv s) (ht : a.thread < s.threads) (hkept : Kept s a) :
    Inv (s.access a.thread (s.calls a.thread) a) := by
  -- in each case the call stands where the access is its next, or the step does nothing
  cases a <;> simp only [Act.thread] at ht ⊢ <;> simp only [State.access]
  -- a connect: it reserves an entry, and queues the connection it establishes
  case find t =>
    split
    · rename_i hp
      split
      · exact h.rest ht hp rfl
      · exact h
    · exact h
  case load t =>
    split
    · rename_i hp
      exact h.rest ht hp rfl
    · exact h
  case check t =>
    split
    · rename_i used hp
      split
      · exact h.rest ht hp rfl
      · exact h.check ht hp (by omega)
    · exact h
  case exchange t spurious =>
    split
    · rename_i used hp
      split
      · -- nobody changed the count since it was read
        rename_i hused
        exact h.exchange ht hp hused.1
      · exact h.rest ht hp rfl
    · exact h
  case establish t =>
    split
    · exact h.establish ht ‹_›
    · exact h
  case abandon t =>
    split
    · exact h.abandon ht ‹_›
    · exact h
  case queue t =>
    split
    · rename_i conn hp
      exact h.queue ht hp (hkept conn (by rw [hp]; rfl))
    · exact h
  -- an accept: it pops the oldest, and keeps it or puts it back
  case accept t =>
    split
    · rename_i hp
      split
      · exact h.rest ht hp rfl
      · exact h
    · exact h
  case pop t =>
    split
    · exact h.pop ht ‹_› ‹_›
    · exact h
  case leave t =>
    split
    · rename_i hp
      exact h.rest ht hp rfl
    · exact h
  case reserveFd t ok =>
    split
    · rename_i conn hp
      cases ok <;> exact h.rest ht hp rfl
    · exact h
  case pushFront t =>
    split
    · -- the queue is as the pop left it
      rename_i conn hp
      obtain ⟨hdrained, hlast⟩ := hkept conn (by rw [hp]; rfl)
      exact h.pushFront ht hp hdrained hlast
    · exact h
  case free t =>
    split
    · exact h.free ht ‹_›
    · exact h
  case deliver t =>
    split
    · exact h.deliver ht ‹_›
    · exact h
  case listen capacity =>
    split
    · exact h.listen hkept
    · exact h
  -- the close: withdraw the address, drain the queue, reset what it held
  case close t =>
    split
    · split
      · exact h.close ht ‹_›
      · exact h
    · exact h
  case unlisten t =>
    split
    · exact h.unlisten ht ‹_›
    · exact h
  case drain t =>
    split
    · exact h.drain ht ‹_›
    · exact h
  case resetNext t =>
    split
    · exact h.resetNext ht ‹_›
    · rename_i hp
      exact h.rest ht hp rfl
    · exact h

theorem Inv.step (h : Inv s) (hkept : Kept s a) : Inv (s.step a) := by
  unfold State.step
  split
  · exact h.access ‹_› hkept
  · exact h

theorem Inv.init (threads capacity : Nat) : Inv { threads, capacity } where
  counted := by
    simp [Counted, State.reservations, State.popped, Place.reserves, Place.pops, Nat.count_false]
  room := nofun
  inOrder := ⟨rfl, fun _ => rfl, fun _ => rfl, nodup_nil⟩
  fresh := ⟨nofun, nofun, nofun⟩
  held := ⟨nofun, nofun, nodup_nil, nofun, nofun⟩
  idle _ _ := rfl
  orphans := nofun
  closing := nofun

def DrainsNothing (s : State) : Act → Prop
  | .drain t => s.calls t = .withdrawn → s.pending = []
  | _ => True

theorem orphaned_step (h : s.orphaned = []) (hdrains : DrainsNothing s a) :
    (s.step a).orphaned = [] := by
  unfold State.step
  split
  · cases a <;> simp only [State.access, Act.thread] <;> (repeat' split) <;> try exact h
    -- the drain
    rename_i hp
    exact (congrArg₂ (· ++ ·) h (hdrains hp)).trans rfl
  · exact h

/-- Every connection queued has been accepted or reset, where the listener is closed and no call is
in progress. -/
def Settled (s : State) : Prop :=
  s.isOpen = false → (∀ t < s.threads, s.calls t = .idle) → ∀ c ∈ s.queued,
    c ∈ s.accepted ∨ c ∈ s.reset

theorem Inv.taken_or (h : Inv s) (c : Conn) (hc : c ∈ s.taken) :
    c ∈ s.accepted ∨ ∃ t < s.threads, (s.calls t).holds = some c := by
  refine (h.held.settled_or c hc).imp_right fun ⟨t, hholds⟩ => ⟨t, ?_, hholds⟩
  by_contra hge
  rw [h.idle t (Nat.le_of_not_lt hge)] at hholds
  cases hholds

theorem Inv.settled (h : Inv s) : Settled s := by
  intro hopen hidle c hc
  have hdrained : s.drained = true := by
    refine (h.closing hopen).resolve_right ?_
    rintro ⟨t, ht, hcloses⟩
    rw [hidle t ht] at hcloses
    cases hcloses
  rw [h.inOrder.order, h.inOrder.after hdrained, append_nil, mem_append] at hc
  rcases hc with hc | hc
  · refine .inl ((h.taken_or c hc).resolve_right ?_)
    rintro ⟨t, ht, hholds⟩
    rw [hidle t ht] at hholds
    cases hholds
  · refine .inr ((h.orphans c hc).resolve_right ?_)
    rintro ⟨t, ht, hresets⟩
    rw [hidle t ht] at hresets
    cases hresets

/-- What the queue keeps between two steps: the count, the order in which connections are taken,
that each is accepted once, and none left behind. -/
structure Conserved (s : State) : Prop where
  counted : s.occupied = s.reservations + s.pending.length + s.popped + s.orphaned.length
  order : s.queued = s.taken ++ s.orphaned ++ s.pending
  nodup : s.queued.Nodup
  taken : ∀ c ∈ s.taken, c ∈ s.accepted ∨ ∃ t < s.threads, (s.calls t).holds = some c
  accepted : ∀ c ∈ s.accepted, c ∈ s.taken
  once : s.accepted.Nodup
  settled : Settled s

theorem Inv.conserved (h : Inv s) : Conserved s where
  counted := h.counted
  order := h.inOrder.order
  nodup := h.inOrder.nodup
  taken := h.taken_or
  accepted := h.held.sound
  once := h.held.nodup
  settled := h.settled

/-- An entry is reserved only below the capacity, and freed only where one is occupied. -/
def Bounded (s : State) : Act → Prop
  | .exchange t _ => t < s.threads → ∀ used ∈ (s.calls t).saw, s.occupied = used →
      s.occupied < s.capacity
  | .abandon t => t < s.threads → s.calls t = .admitted → 0 < s.occupied
  | .free t => t < s.threads → (s.calls t).pops = true → 0 < s.occupied
  | _ => True

theorem Inv.bounded (h : Inv s) (a : Act) : Bounded s a := by
  cases a <;> try trivial
  case exchange t spurious =>
    intro ht used hused heq
    rw [heq]
    exact h.room t ht used hused
  case abandon t =>
    intro ht hp
    exact (h.fetchSub ht (.inl (by rw [hp]; rfl))).1
  case free t =>
    intro ht hp
    exact (h.fetchSub ht (.inr hp)).1

/-- **The accept queue conserves its connections.** Where each step is `Kept`, in every state of the
run the queue is `Conserved` and every entry is reserved and freed within its bounds; and where the
close finds the queue empty, the count is of the entries reserved, queued and popped alone. -/
theorem accept_queue_conserved (threads capacity : Nat) (as : List Act)
    (h : Runs.Along State.step Kept { threads, capacity } as) :
    Runs.Always State.step Conserved { threads, capacity } as ∧
      Runs.Along State.step Bounded { threads, capacity } as ∧
      (Runs.Along State.step DrainsNothing { threads, capacity } as →
        Runs.Always State.step (fun s => s.occupied = s.reservations + s.pending.length + s.popped)
          { threads, capacity } as) := by
  have hstep : ∀ s a, Inv s → Kept s a → Inv (s.step a) := fun s a hs hkept => hs.step hkept
  have hinv := Runs.always_of_along hstep (Inv.init threads capacity) h
  refine ⟨hinv.imp fun s hs => hs.conserved,
    Runs.along_of_along hstep (fun s a hs _ => hs.bounded a) (Inv.init threads capacity) h,
    fun hdrains => ?_⟩
  have horphaned : Runs.Always State.step (fun s => s.orphaned = []) { threads, capacity } as :=
    Runs.always_of_along (fun s a hs hd => orphaned_step hs hd) rfl hdrains
  refine (hinv.and horphaned).imp fun s hs => ?_
  have hcounted := hs.1.counted
  unfold Counted at hcounted
  rw [hs.2] at hcounted
  exact hcounted

/-- A run of two threads in which a connection is queued and accepted while a second one waits,
which the close then resets. -/
theorem accept_queue_conserved_run :
    let as := [.find 0, .load 0, .check 0, .exchange 0 false, .establish 0, .queue 0,
      .accept 1, .find 0, .pop 1, .load 0, .reserveFd 1 true, .check 0, .exchange 0 false, .free 1,
      .establish 0, .listen 1, .deliver 1, .queue 0, .close 1, .unlisten 1, .drain 1, .resetNext 1,
      .resetNext 1]
    Runs.Along State.step Kept { threads := 2, capacity := 3 } as ∧
      Runs.Always State.step Conserved { threads := 2, capacity := 3 } as ∧
      (as.foldl State.step { threads := 2, capacity := 3 }).accepted = [0] ∧
      (as.foldl State.step { threads := 2, capacity := 3 }).reset = [1] := by
  intro as
  have hkept : Runs.Along State.step Kept { threads := 2, capacity := 3 } as := by
    decide +kernel
  exact ⟨hkept, (accept_queue_conserved 2 3 as hkept).1, by decide +kernel, by decide +kernel⟩

/-- A connect that has its entry queues its connection after the close has drained the queue: the
listener is closed, no call is in progress, and the connection is neither accepted nor reset. -/
theorem queued_after_close :
    let s := [.find 0, .load 0, .check 0, .exchange 0 false, .establish 0, .close 1, .unlisten 1,
      .drain 1, .resetNext 1, .queue 0].foldl State.step { threads := 2, capacity := 3 }
    s.isOpen = false ∧ (∀ t < s.threads, s.calls t = .idle) ∧ s.queued = [0] ∧ s.accepted = [] ∧
      s.reset = [] ∧ ¬ Settled s := by
  intro s
  have hopen : s.isOpen = false := by decide +kernel
  have hidle : ∀ t < s.threads, s.calls t = .idle := by decide +kernel
  have hqueued : s.queued = [0] := by decide +kernel
  have haccepted : s.accepted = [] := by decide +kernel
  have hreset : s.reset = [] := by decide +kernel
  refine ⟨hopen, hidle, hqueued, haccepted, hreset, fun hsettled => ?_⟩
  rcases hsettled hopen hidle 0 (by rw [hqueued]; exact mem_singleton_self 0) with hc | hc
  · rw [haccepted] at hc
    cases hc
  · rw [hreset] at hc
    cases hc

end Snare.Listener
