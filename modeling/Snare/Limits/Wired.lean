import Snare.Host
import Snare.Lib.Spans
import Snare.Lib.U64

/-!
# Locked memory

The pages a simulated process has locked, as `proclimits.rs` keeps them: runs of pages with a lock
count each, updated over a range at a time, and the checks `mlock` makes against the limit.

* **The runs are a table of counts.** `update` keeps them sorted, disjoint and without zero counts
  and changes the counts of the range's pages and no others (`update_canonical`, `countAt_update`).
* **The limit holds** (`locked_exact`) unless `mlockall` locked the whole address space, which turns
  the check off (`locked_past_limit`).
* **Nested locks** on macOS are undone without a trace (`nested_lock_undone`).
-/

namespace Snare.Limits

open Spans List

/-- `Privileges`: the soft `RLIMIT_MEMLOCK` in bytes and `CAP_IPC_LOCK`. -/
structure Privileges where
  memlockLimit : Nat
  ipcLock : Bool

structure Wired where
  runs : List Span := []
  all : Bool := false

namespace Wired

variable (w : Wired)

def pages : Nat := (w.runs.map fun r => r.end_ - r.first).sum

variable (start end_ : Nat)

/-- Pages in `[start, end)` with a count of 0. -/
def unwiredIn : Nat :=
  end_ - start - (w.runs.map fun r => min r.end_ end_ - max r.first start).sum

/-- What `update` makes of a run that meets the range: what lies before it, the gap since `at_`, the
part in it, and what lies after. -/
def cut (f : Nat → Nat) (at_ : Nat) (r : Span) : List Span :=
  (if r.first < start then [⟨r.first, start, r.count⟩] else []) ++
  (if at_ < r.first then [⟨at_, r.first, f 0⟩] else []) ++
  [⟨max r.first start, min r.end_ end_, f r.count⟩] ++
  (if end_ < r.end_ then [⟨end_, r.end_, r.count⟩] else [])

/-- The loop of `update` over the runs from `at_`, up to where the range's pages have been given
their new counts, and the push after it. -/
def pieces (start end_ : Nat) (f : Nat → Nat) (at_ : Nat) : List Span → List Span
  | [] => if at_ < end_ then [⟨at_, end_, f 0⟩] else []
  | r :: rest =>
    if r.end_ ≤ start ∨ end_ ≤ r.first then r :: pieces start end_ f at_ rest
    else cut start end_ f at_ r ++ pieces start end_ f (min r.end_ end_) rest

/-- Applies `f` to the count of every page in `[start, end)`. -/
def update (f : Nat → Nat) : Wired :=
  { w with runs := tidy (pieces start end_ f start w.runs) }

def countAt (page : Nat) : Nat := total w.runs page

end Wired

section
variable (os : Host) (pageSize : Nat)

/-- The pages `[addr, addr + len)` touches, or `none` if it wraps the address space. -/
def pageRange (addr len : Nat) : Option (Nat × Nat) :=
  if addr + len ≤ u64Max then some (addr / pageSize, divCeil (addr + len) pageSize) else none

variable (p : Privileges)

def limitPages : Nat :=
  if p.memlockLimit = u64Max then u64Max else p.memlockLimit / pageSize

variable (w : Wired)

def mlockCheck (addr len : Nat) : Except Errno (Option (Nat × Nat)) :=
  if os = .macos ∧ len = 0 then .ok none
  else if os = .linux ∧ p.memlockLimit = 0 ∧ ¬p.ipcLock then .error .EPERM
  else
    match pageRange pageSize addr len with
    | none => .error .EINVAL
    | some (start, end_) =>
      if start = end_ then .ok none
      else
        let locked := w.pages + w.unwiredIn start end_
        match os with
        | .macos =>
          if locked > limitPages pageSize p then .error .EAGAIN else .ok (some (start, end_))
        | .linux =>
          if ¬w.all ∧ locked > limitPages pageSize p ∧ ¬p.ipcLock then .error .ENOMEM
          else .ok (some (start, end_))

/-- What locking a page once more does to its count, a `u32`: Linux locks are not nested. -/
def wireCount (c : Nat) : Nat :=
  match os with
  | .macos => min (c + 1) (2 ^ 32 - 1)
  | .linux => 1

def unwireCount (c : Nat) : Nat :=
  match os with
  | .macos => c - 1
  | .linux => 0

def wire : Option (Nat × Nat) → Wired
  | some (start, end_) => w.update start end_ (wireCount os)
  | none => w

def unwire (addr len : Nat) : Except Errno Wired :=
  match pageRange pageSize addr len with
  | none => .error .EINVAL
  | some (start, end_) =>
    .ok (if start < end_ then w.update start end_ (unwireCount os) else w)

/-- `mlock(2)`: checks and records; the errno it fails with. -/
def mlock (addr len : Nat) : Wired × Option Errno :=
  match mlockCheck os pageSize p w addr len with
  | .ok range => (wire os w range, none)
  | .error e => (w, some e)

/-- `mlockall_check`: the errno `mlockall(flags)` fails with, for `totalVm` mapped pages; the flags
are `MCL_CURRENT` (1), `MCL_FUTURE` (2) and `MCL_ONFAULT` (4). -/
def mlockallCheck (totalVm flags : Nat) : Option Errno :=
  if flags = 0 ∨ 8 ≤ flags ∨ flags = 4 then some .EINVAL
  else if p.memlockLimit = 0 ∧ ¬p.ipcLock then some .EPERM
  else if flags % 2 = 1 ∧ ¬p.ipcLock ∧ totalVm > limitPages pageSize p then some .ENOMEM
  else none

def mlockall (totalVm flags : Nat) : Wired × Option Errno :=
  match mlockallCheck pageSize p totalVm flags with
  | some e => (w, some e)
  | none => (if flags % 2 = 1 then { w with all := true } else w, none)

end

/-! ## Updating a range -/

namespace Wired

section
variable {start end_ : Nat} {f : Nat → Nat}

theorem total_single (c : Prop) [Decidable c] (r : Span) (p : Nat) :
    total (if c then [r] else []) p = if c then r.at_ p else 0 := by
  split <;> simp

variable {at_ : Nat}

theorem total_cut {r : Span} (hmeets : ¬(r.end_ ≤ start ∨ end_ ≤ r.first)) (p : Nat) :
    total (cut start end_ f at_ r) p =
      (if p < start then r.at_ p else 0) + (if at_ ≤ p ∧ p < r.first then f 0 else 0) +
        (if max r.first start ≤ p ∧ p < min r.end_ end_ then f r.count else 0) +
        (if end_ ≤ p then r.at_ p else 0) := by
  have hbefore : (if r.first < start then Span.at_ ⟨r.first, start, r.count⟩ p else 0) =
      if p < start then r.at_ p else 0 := by
    simp only [Span.at_]
    split_ifs <;> omega
  have hgap : (if at_ < r.first then Span.at_ ⟨at_, r.first, f 0⟩ p else 0) =
      if at_ ≤ p ∧ p < r.first then f 0 else 0 := by
    simp only [Span.at_]
    split_ifs <;> omega
  have hafter : (if end_ < r.end_ then Span.at_ ⟨end_, r.end_, r.count⟩ p else 0) =
      if end_ ≤ p then r.at_ p else 0 := by
    simp only [Span.at_]
    split_ifs <;> omega
  simp only [cut, total_append, total_single, total_cons, total_nil, Nat.add_zero, hbefore, hgap,
    hafter]
  rfl

variable {runs : List Span}

theorem total_pieces (h : Canonical runs) (hle : start ≤ end_)
    (hat : start ≤ at_) (hfrom : ∀ r ∈ runs, r.end_ ≤ start ∨ at_ ≤ max r.first start) (p : Nat) :
    total (pieces start end_ f at_ runs) p =
      if start ≤ p ∧ p < end_ then if p < at_ then 0 else f (total runs p) else total runs p := by
  induction runs generalizing at_ with
  | nil =>
    unfold pieces
    simp only [total_single, total_nil, Span.at_]
    split_ifs <;> omega
  | cons r rest ih =>
    have hsolid := (h.solid r mem_cons_self).1
    unfold pieces
    split
    case isTrue houtside =>
      have hcount := ih h.tail hat fun s hs => hfrom s (mem_cons_of_mem r hs)
      rw [total_cons, hcount, total_cons]
      have hr : start ≤ p ∧ p < end_ → r.at_ p = 0 := fun hp => if_neg (by omega)
      split
      case isTrue hp => rw [hr hp, Nat.zero_add, Nat.zero_add]
      case isFalse => rfl
    case isFalse hmeets =>
      have hahead := hfrom r mem_cons_self
      have hcount := ih h.tail (show start ≤ min r.end_ end_ by omega) fun s hs => by
        have := (pairwise_cons.1 h.sorted).1 s hs
        omega
      rw [total_append, total_cut hmeets, hcount, total_cons]
      -- a page is on the run or before it, where the runs to come give nothing, or after it
      rcases lt_or_ge p r.end_ with hbefore | hafter
      · rw [h.total_tail hbefore, Nat.add_zero]
        by_cases hon : r.first ≤ p
        · rw [show r.at_ p = r.count from if_pos ⟨hon, hbefore⟩]
          split_ifs <;> omega
        · rw [show r.at_ p = 0 from if_neg (by omega)]
          split_ifs <;> omega
      · rw [show r.at_ p = 0 from if_neg (by omega), Nat.zero_add]
        split_ifs <;> omega

theorem cut_sublist (r : Span) (at_ : Nat) :
    (cut start end_ f at_ r).Sublist [⟨r.first, start, r.count⟩, ⟨at_, r.first, f 0⟩,
      ⟨max r.first start, min r.end_ end_, f r.count⟩, ⟨end_, r.end_, r.count⟩] := by
  have hone (c : Prop) [Decidable c] (x : Span) : (if c then [x] else []).Sublist [x] := by
    split
    · exact .refl _
    · exact nil_sublist _
  exact (((hone _ _).append (hone _ _)).append (.refl _)).append (hone _ _)

theorem mem_cut {r x : Span} (hsolid : r.first < r.end_)
    (hmeets : ¬(r.end_ ≤ start ∨ end_ ≤ r.first))
    (hahead : r.end_ ≤ start ∨ at_ ≤ max r.first start) (hx : x ∈ cut start end_ f at_ r) :
    r.first ≤ x.first ∧ x.end_ ≤ r.end_ ∧ (x.end_ ≤ start ∨ end_ ≤ x.first) ∨
      at_ ≤ x.first ∧ x.end_ ≤ min r.end_ end_ := by
  have hx := (cut_sublist r at_).subset hx
  simp only [mem_cons, not_mem_nil, or_false] at hx
  rcases hx with rfl | rfl | rfl | rfl <;> dsimp only <;> omega

theorem mem_pieces {lo : Nat} (h : Canonical runs) (hle : start ≤ end_)
    (hat : start ≤ at_) (hlo : ∀ r ∈ runs, lo ≤ r.first)
    (hfrom : ∀ r ∈ runs, r.end_ ≤ start ∨ at_ ≤ max r.first start) {x : Span}
    (hx : x ∈ pieces start end_ f at_ runs) :
    lo ≤ x.first ∧ (x.end_ ≤ start ∨ end_ ≤ x.first) ∨ at_ ≤ x.first ∧ x.end_ ≤ end_ := by
  induction runs generalizing at_ with
  | nil =>
    unfold pieces at hx
    split at hx
    · obtain rfl := mem_singleton.1 hx
      exact .inr ⟨le_rfl, le_rfl⟩
    · cases hx
  | cons r rest ih =>
    have hsolid := (h.solid r mem_cons_self).1
    have hfirst := hlo r mem_cons_self
    have hlo' : ∀ s ∈ rest, lo ≤ s.first := fun s hs => hlo s (mem_cons_of_mem r hs)
    unfold pieces at hx
    split at hx
    case isTrue houtside =>
      rcases mem_cons.1 hx with rfl | hx
      · exact .inl ⟨hfirst, houtside⟩
      · exact ih h.tail hat hlo' (fun s hs => hfrom s (mem_cons_of_mem r hs)) hx
    case isFalse hmeets =>
      have hahead := hfrom r mem_cons_self
      rcases mem_append.1 hx with hx | hx
      · have := mem_cut hsolid hmeets hahead hx
        omega
      · have := ih h.tail (show start ≤ min r.end_ end_ by omega) hlo' (fun s hs => by
          have := (pairwise_cons.1 h.sorted).1 s hs
          omega) hx
        omega

theorem pieces_apart (h : Canonical runs) (hle : start ≤ end_)
    (hat : start ≤ at_) (hfrom : ∀ r ∈ runs, r.end_ ≤ start ∨ at_ ≤ max r.first start) :
    (pieces start end_ f at_ runs).Pairwise Apart := by
  induction runs generalizing at_ with
  | nil =>
    unfold pieces
    split <;> simp
  | cons r rest ih =>
    have hsolid := (h.solid r mem_cons_self).1
    have hsorted := (pairwise_cons.1 h.sorted).1
    unfold pieces
    split
    case isTrue houtside =>
      have hfrom' : ∀ s ∈ rest, s.end_ ≤ start ∨ at_ ≤ max s.first start :=
        fun s hs => hfrom s (mem_cons_of_mem r hs)
      refine pairwise_cons.2 ⟨fun x hx => ?_, ih h.tail hat hfrom'⟩
      have := mem_pieces h.tail hle hat hsorted hfrom' hx
      unfold Apart
      omega
    case isFalse hmeets =>
      have hahead := hfrom r mem_cons_self
      have hfrom' : ∀ s ∈ rest, s.end_ ≤ start ∨ min r.end_ end_ ≤ max s.first start :=
        fun s hs => by
          have := hsorted s hs
          omega
      refine pairwise_append.2 ⟨?_, ih h.tail (by omega) hfrom', fun x hx y hy => ?_⟩
      · refine .sublist (cut_sublist r at_) ?_
        simp only [pairwise_cons, mem_cons, not_mem_nil, or_false, forall_eq_or_imp,
          forall_eq, Apart]
        simp
        omega
      · have := mem_cut hsolid hmeets hahead hx
        have := mem_pieces h.tail hle (by omega) hsorted hfrom' hy
        unfold Apart
        omega

theorem update_canonical {w : Wired} (h : Canonical w.runs) (hle : start ≤ end_) :
    Canonical (w.update start end_ f).runs :=
  canonical_tidy (pieces_apart h hle le_rfl fun _ _ => .inr (by omega))

theorem countAt_update {w : Wired} (h : Canonical w.runs) (hle : start ≤ end_) (p : Nat) :
    (w.update start end_ f).countAt p =
      if start ≤ p ∧ p < end_ then f (w.countAt p) else w.countAt p := by
  unfold countAt update
  rw [total_tidy, total_pieces h hle le_rfl (fun _ _ => .inr (by omega))]
  split
  · rw [if_neg (by omega)]
  · rfl

end

end Wired

/-! ## Sequences of calls -/

/-- What changes the locked pages: a range of pages wired or unwired, `mlockall` and `munlockall`.
-/
inductive Op where
  | wire (start end_ : Nat) (hle : start ≤ end_)
  | unwire (addr len : Nat)
  | mlockall (p : Privileges) (totalVm flags : Nat)
  | munlockall

section
variable (os : Host) (pageSize : Nat)

def Op.run (w : Wired) : Op → Wired
  | .wire start end_ _ => Limits.wire os w (some (start, end_))
  | .unwire addr len => (Limits.unwire os pageSize w addr len).toOption.getD w
  | .mlockall p totalVm flags =>
    match os with
    | .linux => (Limits.mlockall pageSize p w totalVm flags).1
    | .macos => w
  | .munlockall =>
    match os with
    | .linux => {}
    | .macos => w

def onRange (start end_ : Nat) (f : Nat → Nat) (c : Nat → Nat) (page : Nat) : Nat :=
  if start ≤ page ∧ page < end_ then f (c page) else c page

def Op.counts (c : Nat → Nat) : Op → Nat → Nat
  | .wire start end_ _ => onRange start end_ (wireCount os) c
  | .unwire addr len =>
    match pageRange pageSize addr len with
    | some (start, end_) => onRange start end_ (unwireCount os) c
    | none => c
  | .mlockall .. => c
  | .munlockall =>
    match os with
    | .linux => fun _ => 0
    | .macos => c

end

section
variable {os : Host} {pageSize : Nat} {w : Wired}

theorem pageRange_le {addr len start end_ : Nat}
    (h : pageRange pageSize addr len = some (start, end_)) : start ≤ end_ := by
  unfold pageRange at h
  split at h
  · cases h
    exact (Nat.div_le_div_right (Nat.le_add_right addr len)).trans (div_le_divCeil _ _)
  · cases h

theorem Op.run_exact (op : Op) {c : Nat → Nat} (h : Canonical w.runs) (hc : w.countAt = c) :
    Canonical (op.run os pageSize w).runs ∧
      (op.run os pageSize w).countAt = op.counts os pageSize c := by
  have hupdate {start end_ : Nat} (f : Nat → Nat) (hle : start ≤ end_) :
      Canonical (w.update start end_ f).runs ∧
        (w.update start end_ f).countAt = onRange start end_ f c := by
    refine ⟨Wired.update_canonical h hle, funext fun page => ?_⟩
    rw [Wired.countAt_update h hle, hc]
    rfl
  cases op with
  | wire start end_ hle => exact hupdate _ hle
  | unwire addr len =>
    simp only [Op.run, Op.counts, Limits.unwire]
    cases hrange : pageRange pageSize addr len with
    | none => exact ⟨h, hc⟩
    | some range =>
      obtain ⟨start, end_⟩ := range
      dsimp only [Except.toOption, Option.getD_some]
      split
      case isTrue hlt => exact hupdate _ hlt.le
      case isFalse hge =>
        refine ⟨h, funext fun page => ?_⟩
        rw [hc, onRange, if_neg (by omega)]
  | mlockall p totalVm flags =>
    cases os with
    | macos => exact ⟨h, hc⟩
    | linux =>
      have hruns : (Limits.mlockall pageSize p w totalVm flags).1.runs = w.runs := by
        unfold Limits.mlockall
        split
        · rfl
        · split <;> rfl
      refine ⟨?_, ?_⟩
      · rw [Op.run, hruns]
        exact h
      · unfold Wired.countAt at hc ⊢
        rw [Op.run, hruns]
        exact hc
  | munlockall =>
    cases os with
    | macos => exact ⟨h, hc⟩
    | linux => exact ⟨⟨.nil, by simp [Op.run]⟩, rfl⟩

theorem run_exact (ops : List Op) {c : Nat → Nat} (h : Canonical w.runs) (hc : w.countAt = c) :
    Canonical (ops.foldl (Op.run os pageSize) w).runs ∧
      (ops.foldl (Op.run os pageSize) w).countAt = ops.foldl (Op.counts os pageSize) c := by
  induction ops generalizing w c with
  | nil => exact ⟨h, hc⟩
  | cons op rest ih =>
    obtain ⟨h', hc'⟩ := op.run_exact h hc
    exact ih h' hc'

theorem all_eq_false (ops : List Op) (hall : w.all = false)
    (hops : ∀ op ∈ ops, ∀ p totalVm flags, op ≠ .mlockall p totalVm flags) :
    (ops.foldl (Op.run os pageSize) w).all = false := by
  induction ops generalizing w with
  | nil => exact hall
  | cons op rest ih =>
    refine ih ?_ fun o ho => hops o (mem_cons_of_mem op ho)
    cases op with
    | wire start end_ hle => exact hall
    | unwire addr len =>
      simp only [Op.run, Limits.unwire]
      cases pageRange pageSize addr len with
      | none => exact hall
      | some range =>
        dsimp only [Except.toOption, Option.getD_some]
        split <;> exact hall
    | mlockall p totalVm flags => exact absurd rfl (hops _ mem_cons_self p totalVm flags)
    | munlockall => cases os <;> first | exact hall | rfl

/-! ## The counts of pages, and the limit -/

section

variable (h : Canonical w.runs)
include h

theorem pages_eq : w.pages = {p | w.countAt p ≠ 0}.ncard := sum_width_eq h

theorem unwiredIn_eq (start end_ : Nat) :
    w.unwiredIn start end_ = ((Finset.Ico start end_).filter fun p => w.countAt p = 0).card := by
  have hsplit := Finset.card_filter_add_card_filter_not (s := Finset.Ico start end_)
    (fun p => w.countAt p = 0)
  have hcovered := covered_eq h start end_
  rw [Nat.card_Ico] at hsplit
  simp only [covered, ne_eq] at hcovered
  unfold Wired.unwiredIn
  rw [hcovered]
  unfold Wired.countAt at hsplit ⊢
  omega

theorem pages_wire_le {start end_ : Nat} (hle : start ≤ end_) :
    (wire os w (some (start, end_))).pages ≤ w.pages + w.unwiredIn start end_ := by
  rw [wire, pages_eq (Wired.update_canonical h hle), pages_eq h, unwiredIn_eq h,
    ← Set.ncard_coe_finset]
  refine (Set.ncard_le_ncard (fun p hp => ?_)
    ((finite_total w.runs).union (Finset.finite_toSet _))).trans (Set.ncard_union_le _ _)
  rw [Set.mem_ofPred_eq, Wired.countAt_update h hle] at hp
  by_cases hzero : w.countAt p = 0
  · refine .inr ?_
    simp only [Finset.coe_filter, Finset.mem_Ico, Set.mem_ofPred_eq]
    split at hp
    · exact ⟨by assumption, hzero⟩
    · exact absurd hzero hp
  · exact .inl hzero

theorem mlock_within (hall : w.all = false) {p : Privileges} {addr len : Nat}
    (hlock : p.ipcLock = false) (hok : (mlock os pageSize p w addr len).2 = none) :
    (mlock os pageSize p w addr len).1.pages ≤ max w.pages (limitPages pageSize p) := by
  unfold mlock at hok ⊢
  cases hcheck : mlockCheck os pageSize p w addr len with
  | error e =>
    rw [hcheck] at hok
    cases hok
  | ok range =>
    cases range with
    | none => exact le_max_left _ _
    | some range =>
      obtain ⟨start, end_⟩ := range
      -- the check compared what would be locked with the limit
      have hlimit : start ≤ end_ ∧ w.pages + w.unwiredIn start end_ ≤ limitPages pageSize p := by
        unfold mlockCheck at hcheck
        split at hcheck
        · cases hcheck
        split at hcheck
        · cases hcheck
        split at hcheck
        · cases hcheck
        rename_i hrange
        have hle := pageRange_le hrange
        split at hcheck
        · cases hcheck
        cases os with
        | macos =>
          dsimp only at hcheck
          split at hcheck
          · cases hcheck
          · cases hcheck
            exact ⟨hle, by omega⟩
        | linux =>
          simp only [hall, hlock] at hcheck
          split at hcheck
          · cases hcheck
          · rename_i hwithin
            cases hcheck
            exact ⟨hle, by simpa using hwithin⟩
      exact (pages_wire_le h hlimit.1).trans (hlimit.2.trans (le_max_right _ _))

end

end

/-- **The runs are the exact counts, and the limit holds.** After any calls the runs are canonical,
hold each page's count, and give the numbers of locked and not yet locked pages. A refused `mlock`
changes nothing, and one let through without `CAP_IPC_LOCK`, unless `mlockall` has locked
everything, does not raise the locked pages above the limit. -/
theorem locked_exact (os : Host) (pageSize : Nat) (ops : List Op) :
    let w := ops.foldl (Op.run os pageSize) {}
    let c := ops.foldl (Op.counts os pageSize) fun _ => 0
    Canonical w.runs ∧ (∀ page, w.countAt page = c page) ∧ w.pages = {page | c page ≠ 0}.ncard ∧
      (∀ start end_,
        w.unwiredIn start end_ = ((Finset.Ico start end_).filter fun page => c page = 0).card) ∧
      (∀ start end_ f, start ≤ end_ → Canonical (w.update start end_ f).runs ∧
        ∀ page, (w.update start end_ f).countAt page = onRange start end_ f c page) ∧
      (∀ p addr len, (mlock os pageSize p w addr len).2 ≠ none →
        (mlock os pageSize p w addr len).1 = w) ∧
      (∀ p addr len, w.all = false → p.ipcLock = false → (mlock os pageSize p w addr len).2 = none →
        (mlock os pageSize p w addr len).1.pages ≤ max w.pages (limitPages pageSize p)) ∧
      ((∀ op ∈ ops, ∀ p totalVm flags, op ≠ .mlockall p totalVm flags) → w.all = false) := by
  intro w c
  obtain ⟨h, hc⟩ : Canonical w.runs ∧ w.countAt = c := run_exact ops ⟨.nil, by simp⟩ rfl
  refine ⟨h, congrFun hc, hc ▸ pages_eq h, hc ▸ unwiredIn_eq h, fun start end_ f hle =>
    ⟨Wired.update_canonical h hle, fun page => ?_⟩, fun p addr len hrefused => ?_,
    fun p addr len hall hlock hok => mlock_within h hall hlock hok, fun hops => ?_⟩
  · rw [Wired.countAt_update h hle, hc]
    rfl
  · unfold mlock at hrefused ⊢
    split
    · rename_i hcheck
      rw [hcheck] at hrefused
      exact absurd rfl hrefused
    · rfl
  · exact all_eq_false ops rfl hops

/-- After `mlockall` of a process of one page, under a limit of one page and without `CAP_IPC_LOCK`,
an `mlock` of two pages is let through. -/
theorem locked_past_limit :
    let p : Privileges := ⟨4096, false⟩
    let w := [Op.mlockall p 1 1].foldl (Op.run .linux 4096) {}
    (mlock .linux 4096 p w 0 8192).2 = none ∧ w.pages = 0 ∧ limitPages 4096 p = 1 ∧
      (mlock .linux 4096 p w 0 8192).1.pages = 2 := by
  decide +kernel

/-! ## Nested locks -/

/-- **A nested lock leaves no trace** where locks are counted (macOS): however pages were locked, as
long as no count is at the top of its range, locking a range and unlocking it again changes the
answer of no `mlock` after any later calls. -/
theorem nested_lock_undone (pageSize : Nat) (ops later : List Op) {addr len start end_ : Nat}
    (hrange : pageRange pageSize addr len = some (start, end_))
    (hroom : ∀ page, (ops.foldl (Op.run .macos pageSize) {}).countAt page < 2 ^ 32 - 1)
    (p : Privileges) (addr' len' : Nat) :
    let w := ops.foldl (Op.run .macos pageSize) {}
    let w' := [.wire start end_ (pageRange_le hrange), .unwire addr len].foldl
      (Op.run .macos pageSize) w
    (mlock .macos pageSize p (later.foldl (Op.run .macos pageSize) w') addr' len').2 =
      (mlock .macos pageSize p (later.foldl (Op.run .macos pageSize) w) addr' len').2 := by
  intro w w'
  obtain ⟨h, -⟩ : Canonical w.runs ∧ _ := run_exact ops ⟨.nil, by simp⟩ rfl
  obtain ⟨h', hc'⟩ : Canonical w'.runs ∧ _ := run_exact _ h rfl
  -- each page of the range goes up by one and down again
  have hback : w'.countAt = w.countAt := by
    rw [hc']
    funext page
    have : w.countAt page < 2 ^ 32 - 1 := hroom page
    simp only [foldl_cons, foldl_nil, Op.counts, hrange, onRange, wireCount, unwireCount]
    split <;> omega
  obtain ⟨hl, hcl⟩ : Canonical (later.foldl (Op.run .macos pageSize) w).runs ∧ _ :=
    run_exact later h rfl
  obtain ⟨hl', hcl'⟩ : Canonical (later.foldl (Op.run .macos pageSize) w').runs ∧ _ :=
    run_exact later h' rfl
  have hcount : (later.foldl (Op.run .macos pageSize) w').countAt =
      (later.foldl (Op.run .macos pageSize) w).countAt := by rw [hcl, hcl', hback]
  generalize later.foldl (Op.run .macos pageSize) w = v at *
  generalize later.foldl (Op.run .macos pageSize) w' = v' at *
  -- the check looks at the counts alone
  have hcheck : mlockCheck .macos pageSize p v' addr' len' =
      mlockCheck .macos pageSize p v addr' len' := by
    simp only [mlockCheck, pages_eq hl, pages_eq hl', unwiredIn_eq hl, unwiredIn_eq hl', hcount]
  unfold mlock
  rw [hcheck]
  split <;> rfl

theorem nested_lock_undone_once :
    let lock := Op.wire 0 1 (by decide)
    let w := [lock].foldl (Op.run .macos 1) {}
    let w' := [lock, .unwire 0 1].foldl (Op.run .macos 1) w
    (mlock .macos 1 ⟨1, false⟩ w' 1 1).2 = (mlock .macos 1 ⟨1, false⟩ w 1 1).2 :=
  nested_lock_undone 1 [Op.wire 0 1 (by decide)] [] (by decide : pageRange 1 0 1 = some (0, 1))
    (fun page => by
      rw [(run_exact _ ⟨.nil, by simp⟩ rfl).2]
      simp only [foldl_cons, foldl_nil, Op.counts, onRange, wireCount, Wired.countAt]
      split <;> simp) ⟨1, false⟩ 1 1

end Snare.Limits
