import Snare.Sched.Wakes

/-!
# Waking by key

`wake_key_matching` finds the waiters of a key by scanning the slots, and the order they came in by
the sequence number each wait was given. `release_due_matching` scans them for passed deadlines.

* **`Readied`**: what either does to the schedule: it moves a list of waiters to runnable and leaves
  every other thread's slot, and all else but the counters, as it was;
* **`State.unblockAll_readied`**, **`State.unblockOldest_readied`**: the two loops;
* **`State.keyed_wakes`**: who is moved; **`State.wake_split`**: a wake in two parts.
-/

namespace Snare.Sched

open List

def Slot.readied (why : DetWake) (slot : Slot) : Slot :=
  { slot with blocked := none, runnable := some why }

/-- The second state is the first with the threads `ts` moved to runnable. -/
structure Readied (why : DetWake) (st st' : State) (ts : List Nat) : Prop where
  slots : ∀ t, st'.slot t = if t ∈ ts then (st.slot t).map (Slot.readied why) else st.slot t
  rest : st' = { st with threads := st'.threads, runnable := st'.runnable, blocked := st'.blocked }

namespace Readied

variable {why : DetWake} {st st₁ st₂ : State} {t : Nat} {ts : List Nat}

theorem refl (st : State) : Readied why st st [] := ⟨fun _ => rfl, rfl⟩

theorem cons (h₁ : Readied why st st₁ [t]) (h₂ : Readied why st₁ st₂ ts) (ht : t ∉ ts) :
    Readied why st st₂ (t :: ts) where
  slots t' := by
    rw [h₂.slots t', h₁.slots t']
    by_cases heq : t' = t
    · simp [heq, ht]
    · simp [heq]
  rest := by
    rw [h₂.rest, h₁.rest]

theorem slot_of_not_mem (h : Readied why st st₁ ts) (ht : t ∉ ts) : st₁.slot t = st.slot t := by
  rw [h.slots t, if_neg ht]

end Readied

namespace State

variable {st : State} {why : DetWake} {t : Nat}

theorem unblock_readied {slot : Slot} (hslot : st.slot t = some slot)
    (hblocked : slot.blocked.isSome) (why : DetWake) : Readied why st (st.unblock t why) [t] := by
  obtain ⟨b, hb⟩ := Option.isSome_iff_exists.mp hblocked
  rw [unblock_of_blocked hslot hb]
  refine ⟨fun t' => ?_, rfl⟩
  refine (st.slot_modify t _ t').trans ?_
  by_cases heq : t' = t
  · simp only [heq, mem_singleton, if_true]
    rfl
  · simp [heq]

/-! ## All of them, in one pass -/

variable {hit : Slot → Bool}

theorem unblockEach_readied (hhit : ∀ slot, hit slot → slot.blocked.isSome)
    (why : DetWake) {ks : List Nat} (hks : ks.Nodup) (st : State) : Readied why st
      (ks.foldl (fun st t => if (st.slot t).any hit then st.unblock t why else st) st)
      (ks.filter fun t => (st.slot t).any hit) := by
  induction ks generalizing st with
  | nil => exact .refl st
  | cons t ks ih =>
    obtain ⟨hnot, hks⟩ := nodup_cons.mp hks
    rw [foldl_cons]
    cases hany : (st.slot t).any hit with
    | false =>
      rw [filter_cons_of_neg (by simp [hany])]
      exact ih hks st
    | true =>
      obtain ⟨slot, hslot, hslotHit⟩ := (Option.any_eq_true _ _).mp hany
      have hone := unblock_readied hslot (hhit slot hslotHit) why
      -- the later threads stand as they did
      have hsame : (ks.filter fun t' => ((st.unblock t why).slot t').any hit)
          = ks.filter fun t' => (st.slot t').any hit := by
        refine filter_congr fun t' ht' => ?_
        have hne : t' ≠ t := by
          rintro rfl
          exact hnot ht'
        rw [hone.slot_of_not_mem (by simpa using hne)]
      have hrest := ih hks (st.unblock t why)
      rw [hsame] at hrest
      rw [filter_cons_of_pos (by simp [hany])]
      exact hone.cons hrest fun hmem => hnot (mem_filter.mp hmem).1

theorem unblockAll_readied (hhit : ∀ slot, hit slot → slot.blocked.isSome)
    (st : State) (why : DetWake) :
    Readied why st (st.unblockAll hit why) (st.threads.keys.filter fun t => (st.slot t).any hit) :=
  unblockEach_readied hhit why st.threads.nodup_keys st

theorem mem_filter_slots : (t ∈ st.threads.keys.filter fun t => (st.slot t).any hit) ↔
      ∃ slot, st.slot t = some slot ∧ hit slot := by
  rw [mem_filter, SortedMap.mem_keys_iff]
  constructor
  · rintro ⟨⟨slot, hget⟩, hany⟩
    have hslot : st.slot t = some slot := hget
    rw [hslot] at hany
    exact ⟨slot, hslot, hany⟩
  · rintro ⟨slot, hslot, hhit⟩
    exact ⟨⟨slot, hslot⟩, by rw [hslot]; exact hhit⟩

/-! ## The oldest, one pass each -/

def WaitsSince (st : State) (waiting : Slot → Option Nat) (t order : Nat) : Prop :=
  ∃ slot, st.slot t = some slot ∧ waiting slot = some order

/-- One wait began before another; of two begun at once, the lower lineage's comes first. -/
def NotAfter (a b : Nat × Nat) : Prop := a.1 < b.1 ∨ (a.1 = b.1 ∧ a.2 ≤ b.2)

theorem NotAfter.trans {a b c : Nat × Nat} (h : NotAfter a b) (h' : NotAfter b c) :
    NotAfter a c := by
  unfold NotAfter at *
  omega

/-- One look of the scan: the older of the best so far and the thread looked at. -/
def older (waiting : Slot → Option Nat) (best : Option (Nat × Nat)) (e : Nat × Slot) :
    Option (Nat × Nat) :=
  match waiting e.2, best with
  | none, _ => best
  | some order, none => some (order, e.1)
  | some order, some (order', t) => if order < order' then some (order, e.1) else some (order', t)

theorem oldest_eq (st : State) (waiting : Slot → Option Nat) :
    st.oldest waiting = (st.threads.entries.foldl (older waiting) none).map Prod.snd := rfl

theorem older_spec (waiting : Slot → Option Nat) {best : Option (Nat × Nat)} {e : Nat × Slot}
    (hbest : ∀ b ∈ best, b.2 < e.1) :
    (∀ a ∈ older waiting best e, a ∈ best ∨ (a.2 = e.1 ∧ waiting e.2 = some a.1))
      ∧ (∀ b ∈ best, ∃ a ∈ older waiting best e, NotAfter a b)
      ∧ ∀ order, waiting e.2 = some order → ∃ a ∈ older waiting best e,
        NotAfter a (order, e.1) := by
  unfold older NotAfter
  cases hwaiting : waiting e.2 with
  | none =>
    refine ⟨fun a ha => .inl ha, fun b hb => ⟨b, hb, .inr ⟨rfl, le_refl _⟩⟩, nofun⟩
  | some order =>
    cases best with
    | none => simp
    | some b =>
      have hlow : b.2 < e.1 := hbest b rfl
      dsimp only
      split
      · next hlt =>
        refine ⟨?_, ?_, ?_⟩
        · rintro a ⟨⟩
          exact .inr ⟨rfl, rfl⟩
        · rintro _ ⟨⟩
          exact ⟨_, rfl, .inl hlt⟩
        · rintro _ ⟨⟩
          exact ⟨_, rfl, .inr ⟨rfl, le_refl _⟩⟩
      · next hge =>
        refine ⟨fun a ha => .inl ha, ?_, ?_⟩
        · rintro _ ⟨⟩
          exact ⟨_, rfl, .inr ⟨rfl, le_refl _⟩⟩
        · rintro _ ⟨⟩
          refine ⟨_, rfl, ?_⟩
          omega

theorem oldest_scan (waiting : Slot → Option Nat) {es : List (Nat × Slot)}
    (hsorted : es.Pairwise fun a b => a.1 < b.1) (best : Option (Nat × Nat))
    (hbest : ∀ b ∈ best, ∀ e ∈ es, b.2 < e.1) : (∀ a ∈ es.foldl (older waiting) best,
        a ∈ best ∨ ∃ slot, (a.2, slot) ∈ es ∧ waiting slot = some a.1)
      ∧ (∀ b ∈ best, ∃ a ∈ es.foldl (older waiting) best, NotAfter a b)
      ∧ ∀ t slot order, (t, slot) ∈ es → waiting slot = some order →
        ∃ a ∈ es.foldl (older waiting) best, NotAfter a (order, t) := by
  induction es generalizing best with
  | nil =>
    refine ⟨fun a ha => .inl ha, fun b hb => ⟨b, hb, .inr ⟨rfl, le_refl _⟩⟩, ?_⟩
    intro t slot order hmem
    simp at hmem
  | cons e es ih =>
    obtain ⟨hfirst, hsorted⟩ := pairwise_cons.mp hsorted
    obtain ⟨hfrom, hkeeps, hlooks⟩ := older_spec waiting
      fun b hb => hbest b hb e mem_cons_self
    have hbest' : ∀ b ∈ older waiting best e, ∀ e' ∈ es, b.2 < e'.1 := by
      intro b hb e' he'
      rcases hfrom b hb with hold | ⟨hkey, -⟩
      · exact hbest b hold e' (mem_cons_of_mem _ he')
      · rw [hkey]
        exact hfirst e' he'
    obtain ⟨hfrom', hkeeps', hlooks'⟩ := ih hsorted _ hbest'
    rw [foldl_cons]
    refine ⟨?_, ?_, ?_⟩
    · intro a ha
      rcases hfrom' a ha with hold | ⟨slot, hmem, hwaiting⟩
      · rcases hfrom a hold with hold | ⟨hkey, hwaiting⟩
        · exact .inl hold
        · exact .inr ⟨e.2, by rw [hkey]; exact mem_cons_self, hwaiting⟩
      · exact .inr ⟨slot, mem_cons_of_mem _ hmem, hwaiting⟩
    · intro b hb
      obtain ⟨a, ha, hab⟩ := hkeeps b hb
      obtain ⟨a', ha', haa'⟩ := hkeeps' a ha
      exact ⟨a', ha', haa'.trans hab⟩
    · intro t slot order hmem hwaiting
      rcases mem_cons.mp hmem with rfl | hmem
      · obtain ⟨a, ha, hat⟩ := hlooks order hwaiting
        obtain ⟨a', ha', haa'⟩ := hkeeps' a ha
        exact ⟨a', ha', haa'.trans hat⟩
      · exact hlooks' t slot order hmem hwaiting

variable {waiting : Slot → Option Nat}

theorem oldest_spec (h : st.oldest waiting = some t) : ∃ order, st.WaitsSince waiting t order
      ∧ ∀ t' order', st.WaitsSince waiting t' order' → NotAfter (order, t) (order', t') := by
  rw [oldest_eq, Option.map_eq_some_iff] at h
  obtain ⟨a, ha, rfl⟩ := h
  obtain ⟨hfrom, -, hlooks⟩ := oldest_scan waiting st.threads.sorted none (by simp)
  obtain ⟨slot, hmem, hwaiting⟩ := (hfrom a ha).resolve_left (by simp)
  refine ⟨a.1, ⟨slot, SortedMap.get?_eq_some_iff.mpr hmem, hwaiting⟩, ?_⟩
  rintro t' order' ⟨slot', hslot', hwaiting'⟩
  obtain ⟨a', ha', hle⟩ := hlooks t' slot' order' (SortedMap.get?_eq_some_iff.mp hslot') hwaiting'
  obtain rfl : a = a' := Option.some.inj (ha.symm.trans ha')
  exact hle

theorem oldest_isSome (h : 0 < st.threads.count fun slot => (waiting slot).isSome) :
    ∃ t, st.oldest waiting = some t := by
  obtain ⟨e, he, hsome⟩ := countP_pos_iff.mp h
  obtain ⟨order, hwaiting⟩ := Option.isSome_iff_exists.mp hsome
  obtain ⟨-, -, hlooks⟩ := oldest_scan waiting st.threads.sorted none (by simp)
  obtain ⟨a, ha, -⟩ := hlooks e.1 e.2 order he hwaiting
  exact ⟨a.2, by rw [oldest_eq, ha, Option.map_some]⟩

/-- The threads `ts` are the first of the waiters. -/
structure FirstCome (st : State) (waiting : Slot → Option Nat) (ts : List Nat) : Prop where
  nodup : ts.Nodup
  waits : ∀ t ∈ ts, ∃ order, st.WaitsSince waiting t order
  first : ∀ t order t' order', t ∈ ts → t' ∉ ts → st.WaitsSince waiting t order →
    st.WaitsSince waiting t' order' → order < order' ∨ (order = order' ∧ t < t')

theorem WaitsSince.order_eq {order order' : Nat}
    (h : st.WaitsSince waiting t order) (h' : st.WaitsSince waiting t order') : order = order' := by
  obtain ⟨slot, hslot, horder⟩ := h
  obtain ⟨slot', hslot', horder'⟩ := h'
  obtain rfl : slot = slot' := Option.some.inj (hslot.symm.trans hslot')
  exact Option.some.inj (horder.symm.trans horder')

section Oldest

variable {waiting : Slot → Option Nat}
  (hwaiting : ∀ slot, (waiting slot).isSome → slot.blocked.isSome)
include hwaiting

theorem waitsSince_unblock {t t' order order' : Nat} (ht : st.WaitsSince waiting t order) :
    (st.unblock t why).WaitsSince waiting t' order' ↔ t' ≠ t ∧ st.WaitsSince waiting t' order' := by
  obtain ⟨slot, hslot, horder⟩ := ht
  have hone := unblock_readied hslot (hwaiting slot (by rw [horder]; rfl)) why
  unfold WaitsSince
  rw [hone.slots t']
  by_cases heq : t' = t
  · have hnone : waiting (slot.readied why) = none := by
      rw [← Option.not_isSome_iff_eq_none]
      exact fun hsome => by simpa [Slot.readied] using hwaiting _ hsome
    subst heq
    simp [hslot, hnone]
  · simp [heq]

theorem count_unblock {t order : Nat} (ht : st.WaitsSince waiting t order) (why : DetWake) :
    ((st.unblock t why).threads.count fun slot => (waiting slot).isSome) + 1
      = st.threads.count fun slot => (waiting slot).isSome := by
  obtain ⟨slot, hslot, horder⟩ := ht
  have hsome : (waiting slot).isSome := by rw [horder]; rfl
  obtain ⟨b, hb⟩ := Option.isSome_iff_exists.mp (hwaiting slot hsome)
  have hnone : (waiting (slot.readied why)).isSome = false := by
    rw [Bool.eq_false_iff]
    exact fun hsome => by simpa [Slot.readied] using hwaiting _ hsome
  rw [unblock_of_blocked hslot hb]
  have hcount := SortedMap.count_modify (m := st.threads) hslot (Slot.readied why)
    fun slot => (waiting slot).isSome
  rw [hsome, hnone] at hcount
  exact hcount

theorem unblockOldest_readied (why : DetWake) {n : Nat} {st : State}
    (hn : n ≤ st.threads.count fun slot => (waiting slot).isSome) :
    ∃ ts, ts.length = n ∧ st.FirstCome waiting ts
      ∧ Readied why st (unblockOldest waiting why n st) ts := by
  induction n generalizing st with
  | zero =>
    refine ⟨[], rfl, ⟨nodup_nil, by simp, ?_⟩, .refl st⟩
    intro t order t' order' ht
    simp at ht
  | succ n ih =>
    have hpos : 0 < st.threads.count fun slot => (waiting slot).isSome := by omega
    obtain ⟨t, holdest⟩ := oldest_isSome hpos
    obtain ⟨order, ht, hleast⟩ := oldest_spec holdest
    have hcount := count_unblock hwaiting ht why
    have hrest : n ≤ (st.unblock t why).threads.count fun slot => (waiting slot).isSome := by omega
    obtain ⟨ts, hlen, hfirst, hready⟩ := ih hrest
    have hwaits : ∀ {t' order'}, (st.unblock t why).WaitsSince waiting t' order' ↔
        t' ≠ t ∧ st.WaitsSince waiting t' order' := waitsSince_unblock hwaiting ht
    have hnot : t ∉ ts := by
      intro hmem
      obtain ⟨order', ht'⟩ := hfirst.waits t hmem
      exact (hwaits.mp ht').1 rfl
    obtain ⟨slot, hslot, horder⟩ := id ht
    have hone := unblock_readied hslot (hwaiting slot (by rw [horder]; rfl)) why
    refine ⟨t :: ts, by rw [length_cons, hlen], ⟨?_, ?_, ?_⟩, ?_⟩
    · exact nodup_cons.mpr ⟨hnot, hfirst.nodup⟩
    · intro t' ht'
      rcases mem_cons.mp ht' with rfl | ht'
      · exact ⟨order, ht⟩
      · obtain ⟨order', hw⟩ := hfirst.waits t' ht'
        exact ⟨order', (hwaits.mp hw).2⟩
    · intro t₁ order₁ t₂ order₂ hmem hnotMem hw₁ hw₂
      have hne : t₂ ≠ t := fun heq => hnotMem (by simp [heq])
      rcases mem_cons.mp hmem with rfl | hmem
      · -- the oldest of all
        obtain rfl := ht.order_eq hw₁
        have hle := hleast t₂ order₂ hw₂
        unfold NotAfter at hle
        omega
      · have hne₁ : t₁ ≠ t := fun heq => hnot (heq ▸ hmem)
        exact hfirst.first t₁ order₁ t₂ order₂ hmem (fun h => hnotMem (mem_cons_of_mem _ h))
          (hwaits.mpr ⟨hne₁, hw₁⟩) (hwaits.mpr ⟨hne, hw₂⟩)
    · rw [unblockOldest, holdest]
      exact hone.cons hready hnot

end Oldest

/-! ## The two functions -/

/-- When a thread that waits on the key, in a wait that `hit` accepts, began to. -/
def waitingOn (key : DetKey) (hit : Blocked → Bool) (slot : Slot) : Option Nat :=
  (slot.blocked.filter fun (wait, _) => wait.key == key && hit wait).map Prod.snd

theorem blocked_of_waitingOn {key : DetKey} {hit : Blocked → Bool} {slot : Slot}
    (h : (waitingOn key hit slot).isSome) : slot.blocked.isSome := by
  unfold waitingOn at h
  cases hblocked : slot.blocked with
  | none => simp [hblocked] at h
  | some b => rfl

/-- **`wake_key_matching`**: the first of the waiters that match are moved, as many as asked for or
as there are. -/
theorem wakeKeyMatching_readied (st : State) (key : DetKey) (n : Nat) (why : DetWake)
    (hit : Blocked → Bool) :
    ∃ ts, ts.length = min n (st.threads.count fun slot => (waitingOn key hit slot).isSome)
      ∧ (st.wakeKeyMatching key n why hit).2 = ts.length ∧ st.FirstCome (waitingOn key hit) ts
      ∧ Readied why st (st.wakeKeyMatching key n why hit).1 ts := by
  have hwaiting : ∀ slot, (waitingOn key hit slot).isSome → slot.blocked.isSome :=
    fun slot => blocked_of_waitingOn
  have heq : st.wakeKeyMatching key n why hit =
      if n ≥ st.threads.count fun slot => (waitingOn key hit slot).isSome then
        (st.unblockAll (fun slot => (waitingOn key hit slot).isSome) why,
          st.threads.count fun slot => (waitingOn key hit slot).isSome)
      else (unblockOldest (waitingOn key hit) why n st, n) := rfl
  rw [heq]
  split
  · next hall =>
    refine ⟨_, ?_, ?_, ⟨?_, ?_, ?_⟩, unblockAll_readied hwaiting st why⟩
    · rw [min_eq_right hall]
      exact st.threads.length_filter_keys _
    · exact (st.threads.length_filter_keys fun slot => (waitingOn key hit slot).isSome).symm
    · exact st.threads.nodup_keys.filter _
    · intro t ht
      obtain ⟨slot, hslot, hsome⟩ := mem_filter_slots.mp ht
      obtain ⟨order, horder⟩ := Option.isSome_iff_exists.mp hsome
      exact ⟨order, slot, hslot, horder⟩
    · -- nobody that waits is left
      rintro t order t' order' - hnot - ⟨slot', hslot', horder'⟩
      exact absurd (mem_filter_slots.mpr ⟨slot', hslot', by rw [horder']; rfl⟩) hnot
  · next hsome =>
    have hle : n ≤ st.threads.count fun slot => (waitingOn key hit slot).isSome := by omega
    obtain ⟨ts, hlen, hfirst, hready⟩ := unblockOldest_readied hwaiting why hle
    exact ⟨ts, by omega, hlen.symm, hfirst, hready⟩

def Due (now : Option Nat) (b : Blocked) : Prop := ∃ at_ ∈ b.deadline, ∃ n ∈ now, at_ ≤ n

theorem releaseDueMatching_readied (st : State) (now : Option Nat) (hit : Blocked → Bool) :
    ∃ ts, (∀ t, t ∈ ts ↔ ∃ slot b order, st.slot t = some slot ∧ slot.blocked = some (b, order)
        ∧ Due now b ∧ hit b) ∧ Readied .timedOut st (st.releaseDueMatching now hit) ts := by
  cases now with
  | none => exact ⟨[], fun t => by simp [Due], .refl st⟩
  | some now =>
    refine ⟨_, fun t => ?_, unblockAll_readied ?_ st .timedOut⟩
    · rw [mem_filter_slots]
      refine exists_congr fun slot => ?_
      cases hblocked : slot.blocked with
      | none => simp
      | some wait =>
        obtain ⟨b, order⟩ := wait
        simp [Due, Option.any_eq_true]
    · intro slot hslot
      cases hblocked : slot.blocked with
      | none => simp [hblocked] at hslot
      | some wait => rfl

/-- **Keyed wake.** `wake_key_matching` moves to runnable the first of the waiters on the key that
match, `n` of them or all there are, and returns their number; `release_due_matching` moves those
that match and are due. Neither changes another thread's slot, nor anything but the counters. -/
theorem keyed_wakes (st : State) (key : DetKey) (n : Nat) (why : DetWake) (now : Option Nat)
    (hit : Blocked → Bool) :
    (∃ ts, ts.length = min n (st.threads.count fun slot => (waitingOn key hit slot).isSome)
        ∧ (st.wakeKeyMatching key n why hit).2 = ts.length ∧ st.FirstCome (waitingOn key hit) ts
        ∧ Readied why st (st.wakeKeyMatching key n why hit).1 ts)
      ∧ ∃ ts, (∀ t, t ∈ ts ↔ ∃ slot b order, st.slot t = some slot
          ∧ slot.blocked = some (b, order) ∧ Due now b ∧ hit b)
        ∧ Readied .timedOut st (st.releaseDueMatching now hit) ts :=
  ⟨st.wakeKeyMatching_readied key n why hit, st.releaseDueMatching_readied now hit⟩

end State

/-! ## A wake in two parts -/

section Split

variable {st st₁ st₂ : State} {why : DetWake} {waiting : Slot → Option Nat} {t order : Nat}
  {ts ts' : List Nat}

theorem Readied.append (h₁ : Readied why st st₁ ts) (h₂ : Readied why st₁ st₂ ts')
    (hdisj : ∀ t ∈ ts', t ∉ ts) : Readied why st st₂ (ts ++ ts') where
  slots t := by
    rw [h₂.slots t, h₁.slots t]
    by_cases ht : t ∈ ts'
    · simp [ht, hdisj t ht]
    · simp [ht]
  rest := by rw [h₂.rest, h₁.rest]

/-- As many first waiters are the same ones. -/
theorem State.FirstCome.subset (h : st.FirstCome waiting ts) (h' : st.FirstCome waiting ts')
    (hlen : ts.length ≤ ts'.length) : ts ⊆ ts' := by
  intro t ht
  by_contra hnot
  -- one of the second list is missing from the first, and each of the two came before the other
  obtain ⟨t', ht', hnot'⟩ : ∃ t' ∈ ts', t' ∉ ts := by
    by_contra! hall
    have hsub := subperm_of_subset h'.nodup hall
    exact hnot ((hsub.perm_of_length_le hlen).mem_iff.mpr ht)
  obtain ⟨order, hw⟩ := h.waits t ht
  obtain ⟨order', hw'⟩ := h'.waits t' ht'
  have := h.first t order t' order' ht hnot' hw hw'
  have := h'.first t' order' t order ht' hnot hw' hw
  omega

/-- The threads that wait, in the sense of `waiting`. -/
def State.waiters (st : State) (waiting : Slot → Option Nat) : List Nat :=
  st.threads.keys.filter fun t => (st.slot t).any fun slot => (waiting slot).isSome

theorem State.mem_waiters : t ∈ st.waiters waiting ↔ ∃ order, st.WaitsSince waiting t order := by
  rw [State.waiters, State.mem_filter_slots]
  simp only [Option.isSome_iff_exists, State.WaitsSince]
  exact ⟨fun ⟨slot, hslot, order, horder⟩ => ⟨order, slot, hslot, horder⟩,
    fun ⟨order, slot, hslot, horder⟩ => ⟨slot, hslot, order, horder⟩⟩

theorem State.length_waiters : (st.waiters waiting).length =
    st.threads.count fun slot => (waiting slot).isSome := st.threads.length_filter_keys _

theorem State.nodup_waiters : (st.waiters waiting).Nodup := st.threads.nodup_keys.filter _

theorem Readied.waitsSince (h : Readied why st st₁ ts)
    (hwaiting : ∀ slot, (waiting slot).isSome → slot.blocked.isSome) :
    st₁.WaitsSince waiting t order ↔ t ∉ ts ∧ st.WaitsSince waiting t order := by
  have hnone : ∀ slot : Slot, waiting (slot.readied why) = none := fun slot => by
    rw [← Option.not_isSome_iff_eq_none]
    exact fun hsome => by simpa [Slot.readied] using hwaiting _ hsome
  unfold State.WaitsSince
  rw [h.slots t]
  by_cases ht : t ∈ ts <;> simp [ht, hnone]

/-- Those found first of the waiters the first wake left come next. -/
theorem State.FirstCome.append (h : st.FirstCome waiting ts) (h' : st₁.FirstCome waiting ts')
    (hwaits : ∀ {t order},
      st₁.WaitsSince waiting t order ↔ t ∉ ts ∧ st.WaitsSince waiting t order) :
    st.FirstCome waiting (ts ++ ts') := by
  have hdisj : ∀ t ∈ ts', t ∉ ts := fun t ht =>
    let ⟨_, hw⟩ := h'.waits t ht
    (hwaits.mp hw).1
  refine ⟨h.nodup.append h'.nodup fun t h₁ h₂ => hdisj t h₂ h₁, fun t ht => ?_, ?_⟩
  · rcases mem_append.mp ht with ht | ht
    · exact h.waits t ht
    · obtain ⟨order, hw⟩ := h'.waits t ht
      exact ⟨order, (hwaits.mp hw).2⟩
  · intro t order t' order' ht hnot hw hw'
    rw [mem_append, not_or] at hnot
    rcases mem_append.mp ht with ht | ht
    · exact h.first t order t' order' ht hnot.1 hw hw'
    · exact h'.first t order t' order' ht hnot.2 (hwaits.mpr ⟨hdisj t ht, hw⟩)
        (hwaits.mpr ⟨hnot.1, hw'⟩)

theorem State.waiters_perm (h : st.FirstCome waiting ts)
    (hwaits : ∀ {t order},
      st₁.WaitsSince waiting t order ↔ t ∉ ts ∧ st.WaitsSince waiting t order) :
    (ts ++ st₁.waiters waiting).Perm (st.waiters waiting) := by
  refine (perm_ext_iff_of_nodup (h.nodup.append nodup_waiters ?_) nodup_waiters).mpr fun t => ?_
  · intro t h₁ h₂
    obtain ⟨order, hw⟩ := mem_waiters.mp h₂
    exact (hwaits.mp hw).1 h₁
  · rw [mem_append, mem_waiters, mem_waiters]
    simp only [hwaits]
    have := h.waits t
    tauto

end Split

/-- **A wake may be split.** Waking `n` of the waiters on a key that match and then `m` more wakes
as many as waking `n + m` at once, and leaves the schedule as that does, but for the counters,
whether the waiters are found one by one or in the pass that takes them all. -/
theorem State.wake_split (st : State) (key : DetKey) (n m : Nat) (why : DetWake)
    (hit : Blocked → Bool) :
    let first := st.wakeKeyMatching key n why hit
    let second := first.1.wakeKeyMatching key m why hit
    let both := st.wakeKeyMatching key (n + m) why hit
    first.2 + second.2 = both.2 ∧ second.1 =
      { both.1 with runnable := second.1.runnable, blocked := second.1.blocked } := by
  intro first second both
  obtain ⟨ts₁, hlen₁, hnum₁, hfirst₁, hready₁⟩ := st.wakeKeyMatching_readied key n why hit
  obtain ⟨ts₂, hlen₂, hnum₂, hfirst₂, hready₂⟩ := first.1.wakeKeyMatching_readied key m why hit
  obtain ⟨ts, hlen, hnum, hfirst, hready⟩ := st.wakeKeyMatching_readied key (n + m) why hit
  have hwaits : ∀ {t order}, first.1.WaitsSince (waitingOn key hit) t order ↔
      t ∉ ts₁ ∧ st.WaitsSince (waitingOn key hit) t order :=
    hready₁.waitsSince fun _ => blocked_of_waitingOn
  have hboth := hfirst₁.append hfirst₂ hwaits
  -- those that wait after the first wake are the others, so as many are moved
  have hlength := (waiters_perm hfirst₁ hwaits).length_eq
  rw [length_append, length_waiters, length_waiters] at hlength
  have hsize : (ts₁ ++ ts₂).length = ts.length := by
    rw [length_append]
    omega
  have hready₁₂ := hready₁.append hready₂ fun t h₂ h₁ =>
    disjoint_of_nodup_append hboth.nodup h₁ h₂
  have hthreads : second.1.threads = both.1.threads := SortedMap.ext_get? fun t => by
    have hmem : t ∈ ts₁ ++ ts₂ ↔ t ∈ ts :=
      ⟨fun ht => hboth.subset hfirst hsize.le ht, fun ht => hfirst.subset hboth hsize.ge ht⟩
    have hslot := hready₁₂.slots t
    simp only [hmem] at hslot
    exact hslot.trans (hready.slots t).symm
  refine ⟨by rw [hnum₁, hnum₂, hnum, ← hsize, length_append], hready₁₂.rest.trans ?_⟩
  rw [hthreads, hready.rest]

end Snare.Sched
