import Snare.Lib.Runs
import Snare.Net.Qdisc

/-!
# What requests do to the qdisc tables

A class's qdisc is looked up by indexing the children with its minor, so a request is safe where a
classful root has a child for every transmit queue (`Covered`). `mq` gets its children as it becomes
the root, but `mqprio` and `taprio` are classful and get none.

* **`SimHost.qdiscs_safe`**: with no request for such a root, no request panics;
* **`SimHost.mqprio_panics`**: a request for one, then one for a class of it.
-/

namespace Snare.Net

/-! ## Results that are not panics -/

def Returns {α : Type} (x : Except Fault α) : Prop := x ≠ .error .panic

theorem Returns.ok {α : Type} (a : α) : Returns (.ok a : Except Fault α) := by
  simp [Returns]

theorem Returns.fail {α : Type} (e : Errno) : Returns (Net.fail e : Except Fault α) := by
  simp [Returns, Net.fail]

theorem Returns.refuseIf (c : Bool) (e : Errno) : Returns (Net.refuseIf c e) := by
  cases c with
  | true => exact Returns.fail e
  | false => exact Returns.ok ()

theorem Returns.bind {α β : Type} {x : Except Fault α} {f : α → Except Fault β} (hx : Returns x)
    (hf : ∀ a, x = .ok a → Returns (f a)) : Returns (x >>= f) := by
  cases x with
  | error fault =>
    intro h
    cases h
    exact hx rfl
  | ok a => exact hf a rfl

theorem bind_eq_ok {α β : Type} {x : Except Fault α} {f : α → Except Fault β} {b : β}
    (h : (x >>= f) = .ok b) : ∃ a, x = .ok a ∧ f a = .ok b := by
  cases x with
  | error fault =>
    cases h
  | ok a => exact ⟨a, rfl, h⟩

variable {bytes : List UInt8} {pos : Nat}

theorem u16At_ok (h : pos + 2 ≤ bytes.length) : ∃ w, u16At bytes pos = .ok w := by
  have h₀ : pos < bytes.length := by omega
  have h₁ : pos + 1 < bytes.length := by omega
  simp [u16At, h₀, h₁]

theorem u32At_ok (h : pos + 4 ≤ bytes.length) : ∃ w, u32At bytes pos = .ok w := by
  have h₀ : pos < bytes.length := by omega
  have h₁ : pos + 1 < bytes.length := by omega
  have h₂ : pos + 2 < bytes.length := by omega
  have h₃ : pos + 3 < bytes.length := by omega
  simp [u32At, h₀, h₁, h₂, h₃]

theorem slice_ok {start stop : Nat} (h : start ≤ stop)
    (h' : stop ≤ bytes.length) : ∃ part, slice bytes start stop = .ok part := by
  simp [slice, h, h']

theorem findAttr_ok (attrs : List UInt8) (want : UInt16) : ∃ o, findAttr attrs want = .ok o := by
  suffices h : ∀ pos, ∃ o, findAttrFrom attrs want pos = .ok o from h 0
  intro pos
  fun_induction findAttrFrom attrs want pos with
  | case1 pos hpos len ty hty hlen hbad => exact ⟨none, rfl⟩
  | case2 pos hpos len ty hty hlen hbad hwant payload hslice => exact ⟨some payload, rfl⟩
  | case3 pos hpos len ty hty hlen hbad hwant fault hslice =>
    obtain ⟨part, hpart⟩ : ∃ part, slice attrs (pos + 4) (pos + len.toNat) = .ok part :=
      slice_ok (by omega) (by omega)
    rw [hpart] at hslice
    cases hslice
  | case4 pos hpos len ty hty hlen hbad hwant ih => exact ih
  | case5 pos hpos fault hfault =>
    obtain ⟨w, hw⟩ : ∃ w, u16At attrs pos = .ok w := u16At_ok (by omega)
    rw [hw] at hfault
    cases hfault
  | case6 pos hpos fault hfault =>
    obtain ⟨w, hw⟩ : ∃ w, u16At attrs (pos + 2) = .ok w := u16At_ok (by omega)
    rw [hw] at hfault
    cases hfault
  | case7 pos hpos => exact ⟨none, rfl⟩

theorem Returns.findAttr (attrs : List UInt8) (want : UInt16) : Returns (findAttr attrs want) := by
  obtain ⟨o, ho⟩ := findAttr_ok attrs want
  rw [ho]
  exact Returns.ok o

theorem Returns.u32At (h : pos + 4 ≤ bytes.length) : Returns (u32At bytes pos) := by
  obtain ⟨w, hw⟩ := u32At_ok h
  rw [hw]
  exact Returns.ok w

namespace NicQdiscs

/-! ## Building a qdisc -/

theorem etfParms_returns (dev : Device) (options : Option (List UInt8)) (queue : Option UInt32) :
    Returns (etfParms dev options queue) := by
  refine Returns.bind ?_ fun attr _ => ?_
  · cases options with
    | none => exact Returns.ok none
    | some options => exact Returns.findAttr options TCA_ETF_PARMS
  split
  · exact Returns.fail _
  next parms hparms =>
    have hlen : 12 ≤ parms.length := by simpa using (Option.filter_eq_some_iff.mp hparms).2
    refine Returns.bind (Returns.u32At (by omega)) fun delta _ => ?_
    refine Returns.bind (Returns.u32At (by omega)) fun clockid _ => ?_
    refine Returns.bind (Returns.u32At (by omega)) fun flags _ => ?_
    split
    · exact Returns.fail _
    split
    · exact Returns.fail _
    split
    · split
      · exact Returns.fail _
      · split
        · exact Returns.ok _
        · exact Returns.fail _
    · exact Returns.ok _

theorem create_returns (dev : Device) (kind : String) (handle : UInt32)
    (options : Option (List UInt8)) (queue : Option UInt32) :
    Returns (create dev kind handle options queue) := by
  simp only [create]
  split
  · exact Returns.fail _
  split
  · exact Returns.fail _
  split
  · exact Returns.bind (etfParms_returns dev options queue) fun _ _ => Returns.ok _
  · exact Returns.ok _

variable {dev : Device} {handle parent : UInt32}

theorem create_kind {kind : String}
    {options : Option (List UInt8)} {queue : Option UInt32} {new : Qdisc}
    (h : create dev kind handle options queue = .ok new) : new.kind = kind := by
  simp only [create] at h
  split at h
  · cases h
  split at h
  · cases h
  split at h
  · cases hparms : etfParms dev options queue with
    | error fault =>
      rw [hparms] at h
      cases h
    | ok parms =>
      rw [hparms] at h
      cases h
      rfl
  · cases h
    rfl

/-! ## Children for every queue -/

def Covered (q : NicQdiscs) (dev : Device) : Prop :=
  q.classful → ∀ minor, 1 ≤ minor → minor ≤ dev.numTxQueues → (q.children.get? minor).isSome

/-- The device's queues fit a `u32`, and its default qdisc is no classful one that would stand at
the root alone. -/
def Device.Plain (dev : Device) : Prop :=
  dev.numTxQueues < 2 ^ 32 ∧
    (dev.noQueue ∨ dev.numTxQueues ≠ 1 ∨ classfulKind dev.defaultQdisc = false)

theorem get?_foldl_insert (f : Nat → Qdisc) (minors : List Nat) (m : SortedMap Nat Qdisc)
    (minor : Nat) : ((minors.foldl (fun m k => m.insert k (f k)) m).get? minor).isSome
      = (decide (minor ∈ minors) || (m.get? minor).isSome) := by
  induction minors generalizing m with
  | nil => simp
  | cons k minors ih =>
    rw [List.foldl_cons, ih, SortedMap.get?_insert]
    by_cases h : minor = k
    · simp [h]
    · simp [h]

theorem defaults_covered (h : dev.numTxQueues < 2 ^ 32) {minor : Nat}
    (hlo : 1 ≤ minor) (hhi : minor ≤ dev.numTxQueues) : ((defaults dev).get? minor).isSome := by
  simp only [defaults, Nat.mod_eq_of_lt h, get?_foldl_insert, Bool.or_eq_true, decide_eq_true_eq]
  left
  rw [List.mem_range'_1]
  omega

theorem initial_covered (h : Device.Plain dev)
    (etf : Option (Int32 × Int32 × UInt32)) : (initial dev etf).Covered dev := by
  obtain ⟨hfits, hplain⟩ := h
  simp only [initial]
  split
  · intro hclassful
    have hclassful : classfulKind "noqueue" = true := hclassful
    exact absurd hclassful (by decide)
  next hqueue =>
    split
    · exact fun _ minor hlo hhi => defaults_covered hfits hlo hhi
    next hsingle =>
      intro hclassful minor hlo hhi
      have hclassful : classfulKind dev.defaultQdisc = true := hclassful
      -- a default classful root stands over at most one queue, and then is not plain
      have hnotEtf : dev.defaultQdisc ≠ "etf" := by
        intro heq
        rw [heq] at hclassful
        exact absurd hclassful (by decide)
      have hfew : ¬ 1 < dev.numTxQueues := fun hmany => hsingle ⟨hmany, hnotEtf⟩
      rcases hplain with hnone | hcount | hkind
      · exact absurd hnone hqueue
      · omega
      · simp [hkind] at hclassful

variable {q : NicQdiscs}

theorem Covered.insert (h : q.Covered dev) (k : Nat) (new : Qdisc) :
    Covered { q with children := q.children.insert k new } dev := by
  intro hclassful minor hlo hhi
  rw [SortedMap.get?_insert]
  split
  · rfl
  · exact h hclassful minor hlo hhi

/-! ## `RTM_NEWQDISC` -/

theorem Covered.there_returns (h : q.Covered dev)
    (hclassful : q.classful) {minor : Nat} (hlo : 1 ≤ minor) (hhi : minor ≤ dev.numTxQueues) :
    Returns (q.there (some minor)) := by
  obtain ⟨qdisc, hqdisc⟩ := Option.isSome_iff_exists.mp (h hclassful minor hlo hhi)
  simp only [there, hqdisc]
  exact Returns.ok qdisc

theorem modifyQueue_some {queue : UInt32} (h : q.modifyQueue dev parent = .ok (some queue)) :
    q.classful ∧ 1 ≤ (queue + 1).toNat ∧ (queue + 1).toNat ≤ dev.numTxQueues := by
  simp only [modifyQueue] at h
  split at h
  · cases h
  split at h
  · cases h
  split at h
  · cases h
  next hclassful =>
    split at h
    · cases h
    next hminor =>
      cases h
      rw [not_or, not_lt] at hminor
      rw [UInt32.sub_add_cancel]
      refine ⟨by simpa using hclassful, ?_, hminor.2⟩
      have hne : (parent &&& TC_H_MIN_MASK).toNat ≠ 0 := fun h => hminor.1 (UInt32.toNat_inj.mp h)
      omega

theorem modifyQueue_none (h : q.modifyQueue dev parent = .ok none) : parent = TC_H_ROOT := by
  simp only [modifyQueue] at h
  split at h
  · next hroot => exact hroot
  split at h
  · cases h
  split at h
  · cases h
  split at h <;> cases h

theorem modifyQueue_returns (q : NicQdiscs) (dev : Device) (parent : UInt32) :
    Returns (q.modifyQueue dev parent) := by
  simp only [modifyQueue]
  repeat' split
  all_goals first | exact Returns.fail _ | exact Returns.ok _

theorem decideCreate_returns (existing : Qdisc) (differs : Bool)
    (flags : UInt16) (handle : UInt32) :
    Returns (decideCreate existing differs flags handle) := by
  simp only [decideCreate]
  repeat' split
  all_goals first | exact Returns.fail _ | exact Returns.ok _

theorem planned_returns (h : q.Covered dev) (auto : UInt32)
    (flags : UInt16) (handle parent : UInt32) (attrs : List UInt8) :
    Returns (q.planned dev auto flags handle parent attrs) := by
  refine Returns.bind (Returns.findAttr _ _) fun kindAttr _ => ?_
  refine Returns.bind (Returns.findAttr _ _) fun options _ => ?_
  refine Returns.bind (Returns.refuseIf _ _) fun _ _ => ?_
  refine Returns.bind (Returns.refuseIf _ _) fun _ _ => ?_
  refine Returns.bind (q.modifyQueue_returns dev parent) fun queue hqueue => ?_
  refine Returns.bind ?_ fun existing _ => ?_
  · cases queue with
    | none => exact Returns.ok q.root
    | some queue =>
      obtain ⟨hclassful, hlo, hhi⟩ := modifyQueue_some hqueue
      exact h.there_returns hclassful hlo hhi
  refine Returns.bind (decideCreate_returns _ _ _ _) fun create _ => ?_
  cases create with
  | none =>
    refine Returns.bind (Returns.refuseIf _ _) fun _ _ => ?_
    refine Returns.bind (Returns.refuseIf _ _) fun _ _ => ?_
    exact Returns.bind (Returns.refuseIf _ _) fun _ _ => Returns.ok _
  | some needsCreateFlag =>
    refine Returns.bind (Returns.refuseIf _ _) fun _ _ => ?_
    split
    · exact Returns.fail _
    · exact Returns.bind (create_returns _ _ _ _ _) fun _ _ => Returns.ok _

theorem planned_some {auto : UInt32} {flags : UInt16} {attrs : List UInt8}
    {queue : Option UInt32} {new : Qdisc}
    (h : q.planned dev auto flags handle parent attrs = .ok (some (queue, new))) :
    (queue = none → parent = TC_H_ROOT)
      ∧ ∃ kind, findAttr attrs TCA_KIND = .ok (some kind) ∧ new.kind = kindName kind := by
  obtain ⟨kindAttr, hkind, h⟩ := bind_eq_ok h
  obtain ⟨options, -, h⟩ := bind_eq_ok h
  obtain ⟨-, -, h⟩ := bind_eq_ok h
  obtain ⟨-, -, h⟩ := bind_eq_ok h
  obtain ⟨queue', hqueue, h⟩ := bind_eq_ok h
  obtain ⟨existing, -, h⟩ := bind_eq_ok h
  obtain ⟨create, -, h⟩ := bind_eq_ok h
  cases create with
  | none =>
    obtain ⟨-, -, h⟩ := bind_eq_ok h
    obtain ⟨-, -, h⟩ := bind_eq_ok h
    obtain ⟨-, -, h⟩ := bind_eq_ok h
    cases h
  | some needsCreateFlag =>
    obtain ⟨-, -, h⟩ := bind_eq_ok h
    cases kindAttr with
    | none => cases h
    | some kind =>
      obtain ⟨made, hmade, h⟩ := bind_eq_ok h
      cases h
      refine ⟨?_, kind, hkind, create_kind hmade⟩
      rintro rfl
      exact modifyQueue_none hqueue

theorem modify_returns (h : q.Covered dev) (auto : UInt32)
    (flags : UInt16) (handle parent : UInt32) (attrs : List UInt8) :
    Returns (q.modify dev auto flags handle parent attrs).2.2 := by
  have hplanned := planned_returns h auto flags handle parent attrs
  simp only [modify]
  split
  · next fault hfault =>
    rw [hfault] at hplanned
    exact fun heq => hplanned (by cases heq; rfl)
  · exact Returns.ok ()
  · split
    · exact Returns.ok ()
    · exact Returns.ok ()

theorem modify_covered (h : q.Covered dev)
    (hplain : Device.Plain dev) (auto : UInt32) (flags : UInt16) (handle parent : UInt32)
    (attrs : List UInt8)
    (hkind : parent = TC_H_ROOT → ∀ kind, findAttr attrs TCA_KIND = .ok (some kind) →
      kindName kind ≠ "mqprio" ∧ kindName kind ≠ "taprio") :
    (q.modify dev auto flags handle parent attrs).1.Covered dev := by
  simp only [modify]
  split
  · exact h
  · exact h
  · next queue new hplanned =>
    obtain ⟨hroot, kind, hattr, hnew⟩ := planned_some hplanned
    split
    · obtain ⟨hmqprio, htaprio⟩ := hkind (hroot rfl) kind hattr
      intro hclassful minor hlo hhi
      have hmq : new.kind = "mq" := by
        simpa [classful, classfulKind, hnew, hmqprio, htaprio] using hclassful
      rw [if_pos hmq]
      exact defaults_covered hplain.1 hlo hhi
    · exact h.insert _ new

theorem modify_error {auto : UInt32} {flags : UInt16} {attrs : List UInt8} {fault : Fault}
    (h : (q.modify dev auto flags handle parent attrs).2.2 = .error fault) :
    q.modify dev auto flags handle parent attrs = (q, auto, .error fault) := by
  simp only [modify] at h ⊢
  split at h
  · next fault' hfault =>
    cases h
    rfl
  · cases h
  · split at h <;> cases h

/-! ## `RTM_DELQDISC` -/

theorem deleteQueue_some {minor : UInt32} (h : q.deleteQueue dev parent = .ok (some minor)) :
    q.classful ∧ 1 ≤ minor.toNat ∧ minor.toNat ≤ dev.numTxQueues := by
  simp only [deleteQueue] at h
  split at h
  · cases h
  split at h
  · cases h
  next hclassful =>
    split at h
    · cases h
    next hminor =>
      cases h
      rw [not_or, not_lt] at hminor
      simp only [not_or] at hclassful
      refine ⟨by simpa using hclassful.2.2, ?_, hminor.2⟩
      have hne : (parent &&& TC_H_MIN_MASK).toNat ≠ 0 := fun h => hminor.1 (UInt32.toNat_inj.mp h)
      omega

theorem deleteQueue_returns (q : NicQdiscs) (dev : Device) (parent : UInt32) :
    Returns (q.deleteQueue dev parent) := by
  simp only [deleteQueue]
  repeat' split
  all_goals first | exact Returns.fail _ | exact Returns.ok _

theorem toDelete_returns (h : q.Covered dev)
    (handle parent : UInt32) : Returns (q.toDelete dev handle parent) := by
  refine Returns.bind (Returns.refuseIf _ _) fun _ _ => ?_
  refine Returns.bind (q.deleteQueue_returns dev parent) fun queue hqueue => ?_
  refine Returns.bind ?_ fun there _ => ?_
  · cases queue with
    | none => exact Returns.ok q.root
    | some minor =>
      obtain ⟨hclassful, hlo, hhi⟩ := deleteQueue_some hqueue
      exact h.there_returns hclassful hlo hhi
  refine Returns.bind (Returns.refuseIf _ _) fun _ _ => ?_
  exact Returns.bind (Returns.refuseIf _ _) fun _ _ => Returns.ok queue

theorem delete_returns (h : q.Covered dev) (handle parent : UInt32) :
    Returns (q.delete dev handle parent).2 := by
  have hdelete := toDelete_returns h handle parent
  simp only [delete]
  split
  · next fault hfault =>
    rw [hfault] at hdelete
    exact fun heq => hdelete (by cases heq; rfl)
  · exact Returns.ok ()
  · exact Returns.ok ()

theorem delete_covered (h : q.Covered dev) (hplain : Device.Plain dev) (handle parent : UInt32) :
    (q.delete dev handle parent).1.Covered dev := by
  simp only [delete]
  split
  · exact h
  · exact initial_covered hplain none
  · exact h.insert _ _

theorem delete_error {fault : Fault} (h : (q.delete dev handle parent).2 = .error fault) :
    q.delete dev handle parent = (q, .error fault) := by
  simp only [delete] at h ⊢
  split at h
  · cases h
    rfl
  · cases h
  · cases h

end NicQdiscs

/-! ## Runs of requests -/

namespace SimHost

open NicQdiscs (Covered Device.Plain)

variable {host : SimHost} {nic : Nic}

theorem nicAt_ok {ifindex : UInt32} {i : Nat}
    (h : host.nicAt ifindex = .ok (i, nic)) : host.nics[i]? = some nic := by
  simp only [nicAt] at h
  split at h
  · cases h
  split at h
  · cases h
  · next hnic =>
    cases h
    exact hnic

theorem nicAt_returns (host : SimHost) (ifindex : UInt32) : Returns (host.nicAt ifindex) := by
  simp only [nicAt]
  repeat' split
  all_goals first | exact Returns.fail _ | exact Returns.ok _

variable {r : Request} {parent : UInt32} {attrs : List UInt8}

theorem addressed_ok {i : Nat} {handle : UInt32}
    (h : host.addressed r = .ok ((i, nic), handle, parent, attrs)) :
    host.nics[i]? = some nic ∧ r.parent = .ok parent ∧ r.attrs = .ok attrs := by
  obtain ⟨-, -, h⟩ := bind_eq_ok h
  obtain ⟨-, -, h⟩ := bind_eq_ok h
  obtain ⟨ifindex, -, h⟩ := bind_eq_ok h
  obtain ⟨handle', -, h⟩ := bind_eq_ok h
  obtain ⟨parent', hparent, h⟩ := bind_eq_ok h
  obtain ⟨attrs', hattrs, h⟩ := bind_eq_ok h
  obtain ⟨found, hfound, h⟩ := bind_eq_ok h
  cases h
  exact ⟨nicAt_ok hfound, hparent, hattrs⟩

theorem attrs_returns (h : 36 ≤ r.bytes.length) : Returns r.attrs := by
  refine Returns.bind (Returns.u32At (by omega)) fun len _ => ?_
  obtain ⟨part, hpart⟩ : ∃ part,
      slice r.bytes 36 (min (max len.toNat 36) r.bytes.length) = .ok part :=
    slice_ok (by omega) (by omega)
  rw [hpart]
  exact Returns.ok part

theorem addressed_returns (host : SimHost) (r : Request) : Returns (host.addressed r) := by
  refine Returns.bind (Returns.refuseIf _ _) fun _ _ => ?_
  refine Returns.bind (Returns.refuseIf _ _) fun _ hlen => ?_
  have hlen : 36 ≤ r.bytes.length := by
    by_contra hshort
    simp [refuseIf, fail, not_le.mp hshort] at hlen
  refine Returns.bind (Returns.u32At (by omega)) fun ifindex _ => ?_
  refine Returns.bind (Returns.u32At (by omega)) fun handle _ => ?_
  refine Returns.bind (Returns.u32At (by omega)) fun parent _ => ?_
  refine Returns.bind (attrs_returns hlen) fun attrs _ => ?_
  exact Returns.bind (host.nicAt_returns ifindex) fun nic _ => Returns.ok _

/-- Every interface is plain, and its classful root has a child for every transmit queue. -/
def Sound (host : SimHost) : Prop :=
  ∀ nic ∈ host.nics, Device.Plain (nic.device host.defaultQdisc)
    ∧ nic.qdiscs.Covered (nic.device host.defaultQdisc)

def PlainRequest (r : Request) : Prop := r.rootKind ≠ some "mqprio" ∧ r.rootKind ≠ some "taprio"

instance : DecidablePred PlainRequest := fun _ => inferInstanceAs (Decidable (_ ∧ _))

theorem changeNic_returns (r : Request) (handle parent : UInt32)
    (attrs : List UInt8) (h : nic.qdiscs.Covered (nic.device host.defaultQdisc)) :
    Returns (host.changeNic nic r handle parent attrs).2.2 := by
  simp only [changeNic]
  split
  · exact NicQdiscs.modify_returns h _ _ _ _ _
  · exact NicQdiscs.delete_returns h _ _

theorem changeNic_covered (handle : UInt32) (hplain : Device.Plain (nic.device host.defaultQdisc))
    (h : nic.qdiscs.Covered (nic.device host.defaultQdisc)) (hrequest : PlainRequest r)
    (hparent : r.parent = .ok parent) (hattrs : r.attrs = .ok attrs) :
    (host.changeNic nic r handle parent attrs).1.Covered (nic.device host.defaultQdisc) := by
  simp only [changeNic]
  split
  · next hnew =>
    refine NicQdiscs.modify_covered h hplain _ _ _ _ _ fun hroot kind hkind => ?_
    have hname : r.rootKind = some (NicQdiscs.kindName kind) := by
      simp [Request.rootKind, hnew, hparent, hattrs, hroot, hkind]
    rw [PlainRequest, hname] at hrequest
    exact ⟨fun heq => hrequest.1 (by rw [heq]), fun heq => hrequest.2 (by rw [heq])⟩
  · exact NicQdiscs.delete_covered h hplain _ _

theorem Sound.step (h : host.Sound) (hrequest : PlainRequest r) : (host.step r).Sound := by
  simp only [SimHost.step, changeQdisc]
  split
  · exact h
  next i nic handle parent attrs haddressed =>
    obtain ⟨hnic, hparent, hattrs⟩ := addressed_ok haddressed
    obtain ⟨hplain, hcovered⟩ := h nic (List.mem_of_getElem? hnic)
    intro nic' hmem
    rcases List.mem_or_eq_of_mem_set hmem with hmem | rfl
    · exact h nic' hmem
    · exact ⟨hplain, changeNic_covered handle hplain hcovered hrequest hparent hattrs⟩

theorem Sound.returns (h : host.Sound) (r : Request) : Returns (host.changeQdisc r).2 := by
  have haddressed := host.addressed_returns r
  simp only [changeQdisc]
  split
  · next fault hfault =>
    rw [hfault] at haddressed
    exact fun heq => haddressed (by cases heq; rfl)
  · next i nic handle parent attrs hok =>
    obtain ⟨hnic, -, -⟩ := addressed_ok hok
    exact changeNic_returns r handle parent attrs (h nic (List.mem_of_getElem? hnic)).2

theorem changeNic_error {handle : UInt32} {fault : Fault}
    (h : (host.changeNic nic r handle parent attrs).2.2 = .error fault) :
    host.changeNic nic r handle parent attrs = (nic.qdiscs, host.qdiscAuto, .error fault) := by
  simp only [changeNic] at h ⊢
  split at h
  · next hnew =>
    rw [if_pos hnew]
    exact NicQdiscs.modify_error h
  · next hnew =>
    rw [if_neg hnew, NicQdiscs.delete_error h]

/-- **A failed request changes nothing**, in the tables of any interface or the automatic handle. -/
theorem step_of_error {fault : Fault}
    (h : (host.changeQdisc r).2 = .error fault) : host.step r = host := by
  simp only [SimHost.step, changeQdisc] at h ⊢
  split at h
  · rfl
  next i nic handle parent attrs haddressed =>
    obtain ⟨hnic, -, -⟩ := addressed_ok haddressed
    obtain ⟨hi, hget⟩ := List.getElem?_eq_some_iff.mp hnic
    have hsame : host.changeNic nic r handle parent attrs
        = (nic.qdiscs, host.qdiscAuto, .error fault) := changeNic_error h
    rw [hsame]
    have hset : host.nics.set i nic = host.nics := by rw [← hget, List.set_getElem_self]
    rw [hset]

/-- **The qdisc tables are safe.** Over plain devices, and with no request for an `mqprio` or
`taprio` root, no request panics and a classful root has a child for every transmit queue. In every
run whatever, a request that returns an error leaves the host as it was. -/
theorem qdiscs_safe (host : SimHost) (rs : List Request) :
    ((∀ nic ∈ host.nics, Device.Plain (nic.device host.defaultQdisc) ∧
        ∃ etf, nic.qdiscs = NicQdiscs.initial (nic.device host.defaultQdisc) etf) →
      (∀ r ∈ rs, PlainRequest r) →
        Runs.Along step (fun host r => (host.changeQdisc r).2 ≠ .error .panic) host rs
          ∧ Runs.Always step (fun host => ∀ nic ∈ host.nics, nic.qdiscs.classful →
              ∀ minor, 1 ≤ minor → minor ≤ nic.numTxQueues →
                (nic.qdiscs.children.get? minor).isSome) host rs)
      ∧ Runs.Along step
        (fun host r => ∀ e, (host.changeQdisc r).2 = .error (.error e) → host.step r = host)
        host rs := by
  constructor
  · intro hbegin hrequests
    have hsound : host.Sound := by
      intro nic hnic
      obtain ⟨hplain, etf, hinitial⟩ := hbegin nic hnic
      exact ⟨hplain, hinitial ▸ NicQdiscs.initial_covered hplain etf⟩
    have halong : Runs.Along step (fun _ r => PlainRequest r) host rs :=
      Runs.along_of_forall hrequests
    have hstep : ∀ host r, Sound host → PlainRequest r → Sound (host.step r) :=
      fun host r h hr => h.step hr
    constructor
    · exact Runs.along_of_along hstep (fun host r h _ => h.returns r) hsound halong
    · have hruns := Runs.always_of_along hstep hsound halong
      exact hruns.imp fun host h nic hnic => (h nic hnic).2
  · exact Runs.along_of_step (fun _ _ _ => trivial)
      (fun host r (_ : True) e he => step_of_error he) trivial rs

/-- A message with its interface index, handle, parent and attributes, and nothing else filled in.
-/
def message (ifindex handle parent : List UInt8) (attrs : List UInt8) : List UInt8 :=
  [UInt8.ofNat (36 + attrs.length), 0, 0, 0] ++ List.replicate 16 0 ++ ifindex ++ handle ++ parent
    ++ List.replicate 4 0 ++ attrs

def mqprioAttr : List UInt8 := [11, 0, 1, 0, 109, 113, 112, 114, 105, 111, 0, 0]

def mqAttr : List UInt8 := [7, 0, 1, 0, 109, 113, 0, 0]

def fourQueues : SimHost where
  netAdmin := true
  defaultQdisc := "fq_codel"
  nics :=
    let nic : Nic := {
      ifindex := 2, numTxQueues := 4, realTxQueues := 4, noQueue := false, etfOffload := none,
      qdiscs := { root := { kind := "", handle := 0, etf := none }, children := .empty } }
    [{ nic with qdiscs := NicQdiscs.initial (nic.device "fq_codel") none }]

/-- `tc qdisc replace dev 2 root handle 1: KIND`. -/
def replaceRoot (kind : List UInt8) : Request :=
  ⟨true, 0x500, message [2, 0, 0, 0] [0, 0, 1, 0] [255, 255, 255, 255] kind⟩

def deleteFirstClass : Request :=
  ⟨false, 0, message [2, 0, 0, 0] [0, 0, 0, 0] [1, 0, 1, 0] []⟩

/-- `mq` takes the root, and the default qdisc of its first class is not there to delete. -/
theorem qdiscs_safe_mq :
    (∀ nic ∈ fourQueues.nics, Device.Plain (nic.device fourQueues.defaultQdisc) ∧
        ∃ etf, nic.qdiscs = NicQdiscs.initial (nic.device fourQueues.defaultQdisc) etf)
      ∧ (∀ r ∈ [replaceRoot mqAttr, deleteFirstClass], PlainRequest r)
      ∧ Runs.Along step (fun host r => (host.changeQdisc r).2 ≠ .error .panic) fourQueues
        [replaceRoot mqAttr, deleteFirstClass] := by
  have hplain : ∀ nic ∈ fourQueues.nics, Device.Plain (nic.device fourQueues.defaultQdisc) ∧
      ∃ etf, nic.qdiscs = NicQdiscs.initial (nic.device fourQueues.defaultQdisc) etf := by
    intro nic hnic
    simp only [fourQueues, List.mem_singleton] at hnic
    subst hnic
    exact ⟨⟨by decide, Or.inr (Or.inl (by decide))⟩, none, rfl⟩
  have hrequests : ∀ r ∈ [replaceRoot mqAttr, deleteFirstClass], PlainRequest r := by
    decide +kernel
  exact ⟨hplain, hrequests, ((qdiscs_safe fourQueues _).1 hplain hrequests).1⟩

/-- **A classful root without children.** `mqprio` takes the root with no child for any of the four
queues, and a request for its first class panics. -/
theorem mqprio_panics : ((fourQueues.changeQdisc (replaceRoot mqprioAttr)).2 = .ok ())
      ∧ (∀ nic ∈ (fourQueues.step (replaceRoot mqprioAttr)).nics,
        nic.qdiscs.classful ∧ nic.qdiscs.children.get? 1 = none)
      ∧ ((fourQueues.step (replaceRoot mqprioAttr)).changeQdisc deleteFirstClass).2
        = .error .panic := by
  decide +kernel

end SimHost

end Snare.Net
