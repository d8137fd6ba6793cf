import Mathlib

/-!
# The order of a capture file

Frames are queued with the stamp they will carry, some of them ahead of time: a connect's planned
retransmissions, which its outcome confirms or calls off. A flush writes what is due, the least
stamp first, and stops at a planned frame past its plan's mark.

* **`Writer.Inv`**: what is written and what is queued are one list in order, and every frame built
  is written, queued or called off, once.
* **`capture_exact`**: so the file is in order and complete after any calls.
-/

namespace Snare.Capture

open Function List

variable {K : Type} [DecidableEq K]

/-- What is kept of a frame: the connection whose plan it is part of. -/
structure Frame (K : Type) where
  plan : Option K

def Earlier (x y : Nat × Nat) : Prop := x.1 < y.1 ∨ x.1 = y.1 ∧ x.2 ≤ y.2

instance : DecidableRel Earlier := fun _ _ => inferInstanceAs (Decidable (_ ∨ _))

instance : Std.Total Earlier := ⟨fun _ _ => by unfold Earlier; omega⟩

instance : IsTrans (Nat × Nat) Earlier := ⟨fun _ _ _ => by unfold Earlier; omega⟩

/-- The writer, its heap as the list of its entries with the least first. The last three fields are
ghosts: the frames written, the numbers called off, and each stamp up to which a plan was marked or
resolved. -/
structure Writer (K : Type) where
  last : Nat := 0
  nextFrame : Nat := 0
  frames : Nat → Option (Frame K) := fun _ => none
  pending : List (Nat × Nat) := []
  plans : K → Option Nat := fun _ => none
  finished : Bool := false
  written : List ((Nat × Nat) × Frame K) := []
  calledOff : List Nat := []
  decided : List (K × Nat) := []

namespace Writer

variable (w : Writer K)

def push (at_ : Nat) (frame : Frame K) : Writer K :=
  { w with
    nextFrame := w.nextFrame + 1
    frames := update w.frames w.nextFrame (some frame)
    pending := w.pending.orderedInsert Earlier (max at_ w.last, w.nextFrame) }

def stale (key : K) (after : Nat) : List Nat :=
  (w.pending.filter fun p =>
    decide (after < p.1) && (w.frames p.2).any (·.plan = some key)).map Prod.snd

def endPlan (key : K) (after : Nat) : Writer K :=
  if w.plans key = none then w
  else
    { w with
      plans := update w.plans key none
      frames := fun id => if id ∈ w.stale key after then none else w.frames id
      calledOff := w.calledOff ++ w.stale key after
      decided := w.decided ++ [(key, after)] }

def mark (key : K) (sent : Nat) : Writer K :=
  { w with
    plans := update w.plans key (some sent)
    decided := w.decided ++ [(key, sent)] }

def confirmPlan (key : K) (at_ : Nat) : Writer K :=
  match w.plans key with
  | none => w
  | some sent => w.mark key (max sent at_)

/-- `tcp_syn_plan`; a connection without a flow gets no segments. -/
def synPlan (now : Nat) (key : K) (retransmits : List Nat) (flow : Bool) : Writer K :=
  let w := if retransmits.isEmpty then w else w.mark key now
  if flow then retransmits.foldl (fun w d => w.push (now + d) ⟨some key⟩) w else w

def held (at_ : Nat) (frame : Frame K) : Bool :=
  (frame.plan.bind w.plans).any (· < at_)

/-- The loop of `flush_due` over the heap, which is `w.pending`. Left out is what macOS adds: the
stop at the earliest reserved reset, and the resets (`finish_resets`) and dropped acknowledgements
(`discard_acks`) of the calls. -/
def flushLoop (upto : Option Nat) : List (Nat × Nat) → Writer K → Writer K
  | [], w => w
  | p :: rest, w =>
    if upto.any (· < p.1) || (upto.isSome && (w.frames p.2).any (w.held p.1)) then w
    else
      match w.frames p.2 with
      | none => flushLoop upto rest { w with pending := rest }
      | some frame =>
        flushLoop upto rest
          { w with
            pending := rest
            frames := update w.frames p.2 none
            last := max w.last p.1
            written := w.written ++ [(p, frame)] }

def flushDue (upto : Option Nat) : Writer K := flushLoop upto w.pending w

end Writer

/-- What a call does to the writer: it builds a frame, plans retransmissions at delays from now, or
confirms or resolves a plan some time ago. -/
inductive Act (K : Type) where
  | frame (at_ : Nat)
  | synPlan (key : K) (retransmits : List Nat) (flow : Bool)
  | confirmPlan (key : K) (ago : Nat)
  | endPlan (key : K) (ago : Nat)

inductive Call (K : Type) where
  | with_ (now : Nat) (emit : List (Act K))
  | finish

namespace Writer

def act (now : Nat) (w : Writer K) : Act K → Writer K
  | .frame at_ => w.push at_ ⟨none⟩
  | .synPlan key retransmits flow => w.synPlan now key retransmits flow
  | .confirmPlan key ago => w.confirmPlan key (now - ago)
  | .endPlan key ago => w.endPlan key (now - ago)

def step (w : Writer K) : Call K → Writer K
  | .with_ now emit => if w.finished then w else (emit.foldl (act now) w).flushDue (some now)
  | .finish => if w.finished then w else { w.flushDue none with finished := true }

/-! ## The invariant -/

def log (w : Writer K) : List (Nat × Nat) := w.written.map Prod.fst

def live (w : Writer K) : List (Nat × Nat) := w.pending.filter fun p => (w.frames p.2).isSome

/-- A mark or a resolution of the plan is at the stamp or after it. -/
def Covers (w : Writer K) (key : K) (at_ : Nat) : Prop :=
  ∃ sent, (key, sent) ∈ w.decided ∧ at_ ≤ sent

structure Inv (w : Writer K) : Prop where
  order : (w.log ++ w.pending).Pairwise Earlier
  below : ∀ p ∈ w.log, p.1 ≤ w.last
  numbered : ∀ p ∈ w.log ++ w.pending, p.2 < w.nextFrame
  nodup : (w.pending.map Prod.snd).Nodup
  census : (w.log.map Prod.snd ++ (w.live.map Prod.snd ++ w.calledOff)).Perm
    (List.range w.nextFrame)
  marked : ∀ {key sent}, w.plans key = some sent → (key, sent) ∈ w.decided
  planned : ∀ p ∈ w.pending, ∀ key, w.frames p.2 = some ⟨some key⟩ →
    w.plans key ≠ none ∨ w.Covers key p.1
  closed : w.finished = true → w.pending = []

def Covered (w : Writer K) : Prop :=
  ∀ e ∈ w.written, ∀ key, e.2.plan = some key → w.Covers key e.1.1

omit [DecidableEq K] in
theorem Covers.mono {w w' : Writer K} (hsub : w.decided ⊆ w'.decided) {key : K} {at_ : Nat}
    (h : w.Covers key at_) : w'.Covers key at_ :=
  h.imp fun _ hsent => ⟨hsub hsent.1, hsent.2⟩

variable {w : Writer K}

omit [DecidableEq K] in
theorem Inv.push (h : w.Inv) (hopen : w.finished = false) (at_ : Nat) {frame : Frame K}
    (hplan : ∀ key, frame.plan = some key → w.plans key ≠ none) : (w.push at_ frame).Inv := by
  have hperm := w.pending.perm_orderedInsert Earlier (max at_ w.last, w.nextFrame)
  have hnew : ∀ p ∈ w.pending, p.2 ≠ w.nextFrame := fun p hp =>
    (h.numbered p (mem_append_right _ hp)).ne
  obtain ⟨hlog, hpending, hcross⟩ := pairwise_append.mp h.order
  refine ⟨?_, h.below, ?_, ?_, ?_, h.marked, ?_,
    fun hfin => absurd hfin (by simp [Writer.push, hopen])⟩
  · refine pairwise_append.mpr ⟨hlog, hpending.orderedInsert _ _, fun p hp q hq => ?_⟩
    rcases (mem_orderedInsert Earlier).mp hq with rfl | hq
    · have hbelow := h.below p hp
      have hlt := h.numbered p (mem_append_left _ hp)
      unfold Earlier
      omega
    · exact hcross p hp q hq
  · intro p hp
    rcases mem_append.mp hp with hp | hp
    · exact Nat.lt_succ_of_lt (h.numbered p (mem_append_left _ hp))
    · rcases (mem_orderedInsert Earlier).mp hp with rfl | hp
      · exact Nat.lt_succ_self _
      · exact Nat.lt_succ_of_lt (h.numbered p (mem_append_right _ hp))
  · refine ((hperm.map Prod.snd).nodup_iff).mpr (nodup_cons.mpr ⟨fun hmem => ?_, h.nodup⟩)
    obtain ⟨p, hp, heq⟩ := mem_map.mp hmem
    exact hnew p hp heq
  · have hlive : (w.push at_ frame).live.Perm ((max at_ w.last, w.nextFrame) :: w.live) := by
      refine (hperm.filter _).trans (List.Perm.of_eq ?_)
      rw [filter_cons_of_pos (by simp [Writer.push])]
      congr 1
      refine filter_congr fun p hp => ?_
      simp only [Writer.push, update_of_ne (hnew p hp)]
    show (w.log.map Prod.snd ++ ((w.push at_ frame).live.map Prod.snd ++ w.calledOff)).Perm
      (List.range (w.nextFrame + 1))
    rw [range_succ]
    refine (((hlive.map Prod.snd).append_right _).append_left _).trans ?_
    exact perm_middle.trans ((h.census.cons _).trans (perm_append_singleton _ _).symm)
  · intro p hp key hframe
    rcases (mem_orderedInsert Earlier).mp hp with rfl | hp
    · simp only [Writer.push, update_self, Option.some.injEq] at hframe
      exact .inl (hplan key (by rw [hframe]))
    · simp only [Writer.push, update_of_ne (hnew p hp)] at hframe
      exact h.planned p hp key hframe

theorem Inv.decide_ (h : w.Inv) {key : K} {at_ : Nat} {plan : Option Nat}
    (hplan : ∀ s ∈ plan, s = at_)
    {frames : Nat → Option (Frame K)} {off : List Nat}
    (hframes : ∀ {id frame}, frames id = some frame → w.frames id = some frame)
    (hlate : plan = none → ∀ p ∈ w.pending, frames p.2 = some ⟨some key⟩ → p.1 ≤ at_)
    (hcensus : (w.live.map Prod.snd).Perm
      ((w.pending.filter fun p => (frames p.2).isSome).map Prod.snd ++ off)) :
    Inv { w with
      frames
      plans := update w.plans key plan
      calledOff := w.calledOff ++ off
      decided := w.decided ++ [(key, at_)] } := by
  have hself : (key, at_) ∈ w.decided ++ [(key, at_)] :=
    mem_append_right _ (mem_singleton_self _)
  refine ⟨h.order, h.below, h.numbered, h.nodup, ?_, fun {key' sent'} hsent => ?_,
    fun p hp key' hframe => ?_, h.closed⟩
  · refine List.Perm.trans (List.Perm.append_left _ ?_) h.census
    refine List.Perm.trans ?_ (hcensus.symm.append_right _)
    rw [append_assoc]
    exact perm_append_comm.append_left _
  · dsimp only at hsent ⊢
    rcases eq_or_ne key' key with rfl | hne
    · rw [update_self] at hsent
      exact hplan sent' hsent ▸ hself
    · rw [update_of_ne hne] at hsent
      exact mem_append_left _ (h.marked hsent)
  · dsimp only at hframe ⊢
    rcases eq_or_ne key' key with rfl | hne
    · rw [update_self]
      by_cases hnone : plan = none
      · exact .inr ⟨at_, hself, hlate hnone p hp hframe⟩
      · exact .inl hnone
    · rw [update_of_ne hne]
      exact (h.planned p hp key' (hframes hframe)).imp_right
        (Covers.mono (subset_append_left _ _))

theorem Inv.mark (h : w.Inv) (key : K) (sent : Nat) : (w.mark key sent).Inv := by
  have hinv := @Inv.decide_ K _ w h key sent (some sent) (fun _ hs => (Option.some.inj hs).symm)
    w.frames [] id nofun (by rw [append_nil]; rfl)
  rwa [append_nil] at hinv

theorem mem_stale_iff (h : w.Inv) {key : K} {after : Nat} {p : Nat × Nat} (hp : p ∈ w.pending) :
    p.2 ∈ w.stale key after ↔ after < p.1 ∧ (w.frames p.2).any (·.plan = some key) := by
  constructor
  · intro hmem
    obtain ⟨q, hq, heq⟩ := mem_map.mp hmem
    obtain ⟨hq, hlate⟩ := mem_filter.mp hq
    rw [inj_on_of_nodup_map h.nodup hq hp heq] at hlate
    simpa using hlate
  · intro hlate
    exact mem_map.mpr ⟨p, mem_filter.mpr ⟨hp, by simpa using hlate⟩, rfl⟩

theorem Inv.endPlan (h : w.Inv) (key : K) (after : Nat) : (w.endPlan key after).Inv := by
  unfold Writer.endPlan
  split
  · exact h
  · refine @Inv.decide_ K _ w h key after none nofun _ _ (fun {id frame} hframe => ?_)
      (fun _ p hp hframe => ?_) ?_
    · split at hframe
      · cases hframe
      · exact hframe
    · split at hframe
      · cases hframe
      · next hstays =>
        rw [mem_stale_iff h hp, hframe] at hstays
        simpa using hstays
    · -- the live frames are those that stay and the stale ones
      have hsplit := filter_append_perm (fun p => decide (p.2 ∈ w.stale key after)) w.live
      refine ((hsplit.symm.trans perm_append_comm).map Prod.snd).trans ?_
      rw [map_append, live, filter_filter, filter_filter]
      refine List.Perm.of_eq (congrArg₂ _ (congrArg _ ?_) (congrArg _ ?_))
      · refine filter_congr fun p hp => ?_
        by_cases hstale : p.2 ∈ w.stale key after <;> simp [hstale]
      · refine filter_congr fun p hp => ?_
        simp only [mem_stale_iff h hp]
        cases w.frames p.2 <;> simp

/-! ## Flushing -/

section Flush

omit [DecidableEq K]

variable {p : Nat × Nat} {rest : List (Nat × Nat)}

theorem Inv.pop (h : w.Inv) (hp : w.pending = p :: rest) (hoff : w.frames p.2 = none) :
    Inv { w with pending := rest } := by
  have hsub : (w.log ++ rest).Sublist (w.log ++ w.pending) :=
    hp ▸ (sublist_cons_self p rest).append_left w.log
  have hcensus := h.census
  have hnodup := h.nodup
  rw [live, hp, filter_cons_of_neg (by simp [hoff])] at hcensus
  rw [hp] at hnodup
  exact ⟨h.order.sublist hsub, h.below, fun q hq => h.numbered q (hsub.subset hq),
    hnodup.sublist (sublist_cons_self _ _), hcensus, h.marked,
    fun q hq => h.planned q (hp ▸ mem_cons_of_mem p hq),
    fun hfin => by rw [h.closed hfin] at hp; cases hp⟩

theorem Inv.write (h : w.Inv) (hp : w.pending = p :: rest) {frame : Frame K}
    (hframe : w.frames p.2 = some frame) :
    Inv { w with
      pending := rest
      frames := update w.frames p.2 none
      last := max w.last p.1
      written := w.written ++ [(p, frame)] } := by
  have hlog : (w.written ++ [(p, frame)]).map Prod.fst ++ rest = w.log ++ w.pending := by
    rw [hp, map_append, append_assoc]
    rfl
  have hnodup := h.nodup
  rw [hp, map_cons, nodup_cons] at hnodup
  have hother : ∀ q ∈ rest, q.2 ≠ p.2 := fun q hq heq =>
    hnodup.1 (mem_map.mpr ⟨q, hq, heq⟩)
  refine ⟨?_, ?_, ?_, hnodup.2, ?_, h.marked, ?_, fun hfin => ?_⟩
  · rw [log, hlog]
    exact h.order
  · intro q hq
    rw [log, map_append] at hq
    rcases mem_append.mp hq with hq | hq
    · exact (h.below q hq).trans (Nat.le_max_left _ _)
    · exact mem_singleton.mp hq ▸ Nat.le_max_right _ _
  · intro q hq
    rw [log, hlog] at hq
    exact h.numbered q hq
  · have hcensus := h.census
    have hlive : w.live = p :: rest.filter fun q => (update w.frames p.2 none q.2).isSome := by
      rw [live, hp, filter_cons_of_pos (by simp [hframe])]
      congr 1
      refine filter_congr fun q hq => ?_
      rw [update_of_ne (hother q hq)]
    rw [hlive] at hcensus
    rw [log, live, map_append, map_append, append_assoc]
    exact hcensus
  · intro q hq key hkey
    dsimp only at hkey
    rw [update_of_ne (hother q hq)] at hkey
    exact h.planned q (hp ▸ mem_cons_of_mem p hq) key hkey
  · rw [h.closed hfin] at hp
    cases hp

end Flush

/-! ## Runs -/

structure Open (w : Writer K) : Prop where
  inv : w.Inv
  finished : w.finished = false
  covered : w.Covered

omit [DecidableEq K] in
theorem Open.push (h : w.Open) (at_ : Nat) {frame : Frame K}
    (hplan : ∀ key, frame.plan = some key → w.plans key ≠ none) : (w.push at_ frame).Open :=
  ⟨h.inv.push h.finished at_ hplan, h.finished, h.covered⟩

theorem Open.mark (h : w.Open) (key : K) (sent : Nat) : (w.mark key sent).Open :=
  ⟨h.inv.mark key sent, h.finished, fun e he key' hkey =>
    (h.covered e he key' hkey).mono (subset_append_left _ _)⟩

omit [DecidableEq K] in
theorem Open.foldl_push {key : K} {now : Nat} (retransmits : List Nat) {w : Writer K} (h : w.Open)
    (hplan : w.plans key ≠ none) :
    (retransmits.foldl (fun w d => w.push (now + d) ⟨some key⟩) w).Open := by
  induction retransmits generalizing w with
  | nil => exact h
  | cons d retransmits ih => exact ih (h.push _ fun _ hkey => Option.some.inj hkey ▸ hplan) hplan

theorem Open.act (h : w.Open) (now : Nat) (a : Act K) : (w.act now a).Open := by
  cases a with
  | frame at_ => exact h.push at_ nofun
  | synPlan key retransmits flow =>
    cases retransmits with
    | nil => cases flow <;> exact h
    | cons d retransmits =>
      have hmark := h.mark key now
      cases flow with
      | false => exact hmark
      | true =>
        refine hmark.foldl_push (d :: retransmits) ?_
        rw [show (w.mark key now).plans key = some now from update_self ..]
        nofun
  | confirmPlan key ago =>
    simp only [Writer.act, confirmPlan]
    split
    · exact h
    · exact h.mark key _
  | endPlan key ago =>
    refine ⟨h.inv.endPlan key _, ?_, fun e he key' hkey => ?_⟩
    · simp only [Writer.act, Writer.endPlan]
      split <;> exact h.finished
    · simp only [Writer.act, Writer.endPlan] at he ⊢
      split at he <;> rename_i hplan
      · rw [if_pos hplan]
        exact h.covered e he key' hkey
      · rw [if_neg hplan]
        exact (h.covered e he key' hkey).mono (subset_append_left _ _)

end Writer

end Snare.Capture
