import Snare.Fs.Perm
import Snare.Lib.Runs

/-!
# An unprivileged caller gains nothing

Any nodes, and any sequence of `create`, `chmod`, `chown` and `wrote` calls on them by one Linux
caller without privileges. Each call strips bits under its own conditions; what they have in common
is that a file they touch is left without set-group-ID and group execute under a foreign group
(`Clean`), and that an owner never changes hands.

* **`NodeTable.no_escalation`**: along every run.
-/

namespace Snare.Fs

/-! ## Bits -/

variable (mode : Mode)

def SetGidExec : Prop := mode &&& (setGid ||| groupExec) = setGid ||| groupExec

theorem not_setGidExec {mode bit : Mode}
    (hbit : (setGid ||| groupExec) &&& bit = bit) (hne : bit ≠ 0)
    (h : mode &&& bit = 0) : ¬ SetGidExec mode := by
  intro hboth
  rw [← hbit, ← BitVec.and_assoc, hboth, hbit] at h
  exact hne h

theorem and_not_and_self (mode bit : Mode) : mode &&& ~~~bit &&& bit = 0 := by
  rw [BitVec.and_assoc, BitVec.and_comm (~~~bit) bit, BitVec.and_not_self]
  exact BitVec.and_zero

theorem setGidExec_modeBits {mode : Mode} : SetGidExec (mode &&& modeBits) ↔ SetGidExec mode := by
  unfold SetGidExec
  rw [BitVec.and_assoc, show modeBits &&& (setGid ||| groupExec) = setGid ||| groupExec by decide]

theorem setUid_killPrivs : Credentials.killPrivs mode &&& setUid = 0 := by
  unfold Credentials.killPrivs
  dsimp only
  split
  · rw [BitVec.and_assoc, BitVec.and_comm (~~~setGid), ← BitVec.and_assoc, and_not_and_self]
    exact BitVec.zero_and
  · exact and_not_and_self _ _

theorem not_setGidExec_killPrivs : ¬ SetGidExec (Credentials.killPrivs mode) := by
  unfold Credentials.killPrivs
  dsimp only
  split
  · exact not_setGidExec (by decide) (by decide) (and_not_and_self _ _)
  · rename_i hexec
    exact @not_setGidExec _ groupExec (by decide) (by decide) (by simpa using hexec)

/-! ## One call -/

def Credentials.Clean (c : Credentials) (kind : Kind) (owner : Owner) : Prop :=
  kind = .file → SetGidExec owner.mode → owner.gid ∈ c.groups

namespace Credentials

variable {c : Credentials}

theorem clean_create (parent : Owner) (mode : Mode) (kind : Kind) (hc : c.privileged = false) :
    c.Clean kind (c.create .linux parent mode kind) := by
  rintro rfl hboth
  simp only [create] at hboth ⊢
  cases hinherits : parent.mode &&& setGid != 0 with
  | false => simpa [hinherits] using c.gid_mem
  | true =>
    simp only [hinherits, Bool.true_and, if_true] at hboth ⊢
    split at hboth
    · -- the bit was stripped
      exact absurd hboth (not_setGidExec (by decide) (by decide) (and_not_and_self _ _))
    · rename_i hstrip
      rw [setGidExec_modeBits] at hboth
      simpa [stripsSetGid, hc, beq_iff_eq.mpr hboth, inGroup_iff] using hstrip

theorem clean_chmod {owner : Owner} {mode : Mode} (kind : Kind) (hc : c.privileged = false)
    (hok : (c.chmod owner mode).2 = .ok ()) : c.Clean kind (c.chmod owner mode).1 := by
  intro _ hboth
  unfold chmod at hok hboth ⊢
  split at hok
  · cases hok
  rename_i howns
  simp only [howns, hc, Bool.not_false, Bool.true_and] at hboth ⊢
  cases hgroup : c.inGroup owner.gid with
  | true => exact inGroup_iff.mp hgroup
  | false =>
    simp only [hgroup, Bool.not_false, if_true] at hboth
    exact absurd hboth (not_setGidExec (by decide) (by decide) (and_not_and_self _ _))

theorem clean_chown {owner : Owner} {kind : Kind} {uid gid : Nat} {marked : Bool}
    (hok : (c.chown .linux owner kind uid gid).2 = .ok marked) :
    c.Clean kind (c.chown .linux owner kind uid gid).1 := by
  rintro rfl hboth
  unfold chown at hok hboth
  dsimp only at hok hboth
  split at hok
  · cases hok
  · rename_i hallowed
    rw [if_neg hallowed] at hboth
    exact absurd hboth (not_setGidExec_killPrivs _)

variable (owner : Owner)

theorem clean_wrote (kind : Kind) (truncate : Bool) (hc : c.privileged = false) :
    c.Clean kind (c.wrote .linux owner truncate) := by
  intro _ hboth
  simp only [wrote, hc, Bool.false_eq_true, if_false] at hboth
  exact absurd hboth (not_setGidExec_killPrivs _)

theorem chmod_error {owner : Owner} {mode : Mode} {e : Errno}
    (he : (c.chmod owner mode).2 = .error e) : (c.chmod owner mode).1 = owner := by
  unfold chmod at he ⊢
  split at he
  · rename_i howns
    rw [if_pos howns]
  · cases he

theorem chown_error {host : Host} {owner : Owner} {kind : Kind} {uid gid : Nat} {e : Errno}
    (he : (c.chown host owner kind uid gid).2 = .error e) :
    (c.chown host owner kind uid gid).1 = owner := by
  unfold chown at he ⊢
  dsimp only at he ⊢
  split at he
  · rename_i hallowed
    rw [if_pos hallowed]
  · cases host <;> cases he

/-- What a call on an existing node keeps: its uid, and set-user-ID off nodes of others. -/
structure Keeps (c : Credentials) (owner owner' : Owner) : Prop where
  uid : owner'.uid = owner.uid
  setUid : owner'.mode &&& setUid ≠ 0 → owner.mode &&& Fs.setUid ≠ 0 ∨ owner'.uid = c.uid

theorem keeps_chmod (mode : Mode) (hc : c.privileged = false) :
    c.Keeps owner (c.chmod owner mode).1 := by
  unfold chmod
  split
  · exact ⟨rfl, .inl⟩
  · rename_i howns
    refine ⟨rfl, fun _ => .inr ?_⟩
    simpa [owns, hc] using howns

theorem keeps_chown (kind : Kind) (uid gid : Nat) (hc : c.privileged = false) :
    c.Keeps owner (c.chown .linux owner kind uid gid).1 := by
  unfold chown
  dsimp only
  split
  · exact ⟨rfl, .inl⟩
  · rename_i hallowed
    have hallowed : c.chownAllowed .linux owner (named uid) (named gid) = true := by
      simpa [hc] using hallowed
    simp only [chownAllowed, Bool.and_eq_true] at hallowed
    refine ⟨?_, ?_⟩
    · -- the uid named is the one the node has
      cases huid : named uid with
      | none => rfl
      | some u =>
        have hsame := hallowed.1
        rw [huid] at hsame
        simp only [Option.all_some, Bool.and_eq_true, beq_iff_eq] at hsame
        exact hsame.2
    · intro hbit
      split at hbit
      · exact .inl hbit
      · exact absurd (setUid_killPrivs _) hbit

theorem keeps_wrote (truncate : Bool) (hc : c.privileged = false) :
    c.Keeps owner (c.wrote .linux owner truncate) := by
  simp only [wrote, hc, Bool.false_eq_true, if_false]
  exact ⟨rfl, fun hbit => absurd (setUid_killPrivs _) hbit⟩

end Credentials

/-! ## Sequences of calls -/

structure Node where
  kind : Kind
  owner : Owner
  deriving DecidableEq

/-- Some nodes, and which of them calls created or changed. -/
structure NodeTable where
  nodes : List Node
  touched : List Nat

inductive PermCall where
  | create (parent : Nat) (mode : Mode) (kind : Kind)
  | chmod (node : Nat) (mode : Mode)
  | chown (node : Nat) (uid gid : Nat)
  | wrote (node : Nat) (truncate : Bool)

namespace NodeTable

/-- Writes a node's owner back, marking the node if the call succeeded. -/
def put {α : Type} (t : NodeTable) (i : Nat) (n : Node) (result : Owner × Except Errno α) :
    NodeTable × Option Errno :=
  let nodes := t.nodes.set i { n with owner := result.1 }
  match result.2 with
  | .error e => (⟨nodes, t.touched⟩, some e)
  | .ok _ => (⟨nodes, i :: t.touched⟩, none)

def call (c : Credentials) (t : NodeTable) : PermCall → NodeTable × Option Errno
  | .create parent mode kind =>
    match t.nodes[parent]? with
    | none => (t, some .ENOENT)
    | some p =>
      let node := ⟨kind, c.create .linux p.owner mode kind⟩
      (⟨t.nodes ++ [node], t.nodes.length :: t.touched⟩, none)
  | .chmod i mode =>
    match t.nodes[i]? with
    | none => (t, some .ENOENT)
    | some n => t.put i n (c.chmod n.owner mode)
  | .chown i uid gid =>
    match t.nodes[i]? with
    | none => (t, some .ENOENT)
    | some n => t.put i n (c.chown .linux n.owner n.kind uid gid)
  | .wrote i truncate =>
    match t.nodes[i]? with
    | none => (t, some .ENOENT)
    | some n => t.put i n (c.wrote .linux n.owner truncate, (Except.ok () : Except Errno Unit))

def step (c : Credentials) (t : NodeTable) (a : PermCall) : NodeTable := (t.call c a).1

def Clean (c : Credentials) (t : NodeTable) : Prop :=
  ∀ i ∈ t.touched, ∀ n, t.nodes[i]? = some n → c.Clean n.kind n.owner

/-- What one call may do: no uid changes, set-user-ID appears only on nodes of the caller, and an
error leaves every node as it was. -/
structure Sealed (c : Credentials) (t : NodeTable) (a : PermCall) : Prop where
  uid : ∀ (i : Nat) (n : Node), t.nodes[i]? = some n →
    ∃ n', (t.step c a).nodes[i]? = some n' ∧ n'.kind = n.kind ∧ n'.owner.uid = n.owner.uid
  setUid : ∀ (i : Nat) (n' : Node), (t.step c a).nodes[i]? = some n' →
    n'.owner.mode &&& setUid ≠ 0 → n'.owner.uid = c.uid ∨ ∃ n, t.nodes[i]? = some n ∧
      n.owner.mode &&& Fs.setUid ≠ 0
  error : (t.call c a).2 ≠ none → (t.step c a).nodes = t.nodes

variable {c : Credentials} {t : NodeTable}

/-- Every call on an existing node goes through `put`. -/
theorem sealed_put {α : Type} {i : Nat} {n : Node} {result : Owner × Except Errno α}
    {a : PermCall} (ha : t.call c a = t.put i n result) (hn : t.nodes[i]? = some n)
    (hkeeps : c.Keeps n.owner result.1)
    (herror : ∀ e, result.2 = .error e → result.1 = n.owner) : t.Sealed c a := by
  obtain ⟨hi, rfl⟩ := List.getElem?_eq_some_iff.mp hn
  have hnodes : (t.step c a).nodes = t.nodes.set i { t.nodes[i] with owner := result.1 } := by
    rw [step, ha, put]
    split <;> rfl
  refine ⟨fun j m hm => ?_, fun j m' hm' hbit => ?_, fun herr => ?_⟩
  · rw [hnodes, List.getElem?_set]
    by_cases hij : i = j
    · subst hij
      rw [hn] at hm
      cases hm
      rw [if_pos rfl, if_pos hi]
      exact ⟨_, rfl, rfl, hkeeps.uid⟩
    · exact ⟨m, by rw [if_neg hij, hm], rfl, rfl⟩
  · rw [hnodes, List.getElem?_set] at hm'
    by_cases hij : i = j
    · subst hij
      rw [if_pos rfl, if_pos hi] at hm'
      cases hm'
      rcases hkeeps.setUid hbit with hold | hmine
      · exact .inr ⟨_, hn, hold⟩
      · exact .inl hmine
    · rw [if_neg hij] at hm'
      exact .inr ⟨m', hm', hbit⟩
  · rw [ha, put] at herr
    rw [hnodes]
    cases hresult : result.2 with
    | error e =>
      rw [herror e hresult]
      exact List.set_getElem_self hi
    | ok v => simp [hresult] at herr

theorem sealed_missing {a : PermCall} (ha : t.call c a = (t, some .ENOENT)) : t.Sealed c a := by
  have hstep : t.step c a = t := by rw [step, ha]
  refine ⟨fun j m hm => ⟨m, by rw [hstep, hm], rfl, rfl⟩, fun j m' hm' hbit => .inr ⟨m', ?_, hbit⟩,
    fun _ => by rw [hstep]⟩
  rwa [hstep] at hm'

theorem sealed (hc : c.privileged = false) (t : NodeTable) (a : PermCall) : t.Sealed c a := by
  cases a with
  | create parent mode kind =>
    cases hp : t.nodes[parent]? with
    | none => exact sealed_missing (by simp only [call, hp])
    | some p =>
      have hnodes : (t.step c (.create parent mode kind)).nodes
          = t.nodes ++ [⟨kind, c.create .linux p.owner mode kind⟩] := by
        simp only [step, call, hp]
      refine ⟨fun j m hm => ?_, fun j m' hm' hbit => ?_, fun herr => ?_⟩
      · have hj := (List.getElem?_eq_some_iff.mp hm).1
        exact ⟨m, by rw [hnodes, List.getElem?_append_left hj, hm], rfl, rfl⟩
      · rw [hnodes] at hm'
        rcases Nat.lt_or_ge j t.nodes.length with hj | hj
        · rw [List.getElem?_append_left hj] at hm'
          exact .inr ⟨m', hm', hbit⟩
        · -- the new node is the caller's
          rw [List.getElem?_append_right hj] at hm'
          obtain rfl := List.mem_singleton.mp (List.mem_of_getElem? hm')
          exact .inl rfl
      · simp [call, hp] at herr
  | chmod i mode =>
    cases hn : t.nodes[i]? with
    | none => exact sealed_missing (by simp only [call, hn])
    | some n =>
      exact sealed_put (by simp only [call, hn]) hn (Credentials.keeps_chmod n.owner mode hc)
        fun e he => Credentials.chmod_error he
  | chown i uid gid =>
    cases hn : t.nodes[i]? with
    | none => exact sealed_missing (by simp only [call, hn])
    | some n =>
      exact sealed_put (by simp only [call, hn]) hn
        (Credentials.keeps_chown n.owner n.kind uid gid hc)
        fun e he => Credentials.chown_error he
  | wrote i truncate =>
    cases hn : t.nodes[i]? with
    | none => exact sealed_missing (by simp only [call, hn])
    | some n =>
      have hcall : t.call c (.wrote i truncate)
          = t.put i n (c.wrote .linux n.owner truncate, (Except.ok () : Except Errno Unit)) := by
        simp only [call, hn]
      exact sealed_put hcall hn (Credentials.keeps_wrote n.owner truncate hc)
        fun e he => by cases he

theorem Clean.put {α : Type} (h : t.Clean c) {i : Nat} {n : Node}
    {result : Owner × Except Errno α} (hn : t.nodes[i]? = some n)
    (hclean : ∀ v, result.2 = .ok v → c.Clean n.kind result.1)
    (herror : ∀ e, result.2 = .error e → result.1 = n.owner) : (t.put i n result).1.Clean c := by
  obtain ⟨hi, rfl⟩ := List.getElem?_eq_some_iff.mp hn
  unfold NodeTable.put
  cases hresult : result.2 with
  | error e =>
    simp only
    rw [herror e hresult, List.set_getElem_self hi]
    exact h
  | ok v =>
    intro j hj m hm
    simp only [List.getElem?_set] at hm
    by_cases hij : i = j
    · subst hij
      rw [if_pos rfl, if_pos hi] at hm
      cases hm
      exact hclean v hresult
    · rw [if_neg hij] at hm
      rcases List.mem_cons.mp hj with rfl | hj
      · exact absurd rfl hij
      · exact h j hj m hm

theorem Clean.step (h : t.Clean c) (hc : c.privileged = false) (a : PermCall) :
    (t.step c a).Clean c := by
  cases a with
  | create parent mode kind =>
    cases hp : t.nodes[parent]? with
    | none => simpa only [NodeTable.step, call, hp] using h
    | some p =>
      simp only [NodeTable.step, call, hp]
      intro j hj m hm
      rcases Nat.lt_or_ge j t.nodes.length with hlt | hge
      · rw [List.getElem?_append_left hlt] at hm
        rcases List.mem_cons.mp hj with rfl | hj
        · exact absurd hlt (Nat.lt_irrefl _)
        · exact h j hj m hm
      · rw [List.getElem?_append_right hge] at hm
        obtain rfl := List.mem_singleton.mp (List.mem_of_getElem? hm)
        exact Credentials.clean_create _ _ _ hc
  | chmod i mode =>
    cases hn : t.nodes[i]? with
    | none => simpa only [NodeTable.step, call, hn] using h
    | some n =>
      simp only [NodeTable.step, call, hn]
      exact h.put hn (fun v hv => Credentials.clean_chmod _ hc hv)
        fun e he => Credentials.chmod_error he
  | chown i uid gid =>
    cases hn : t.nodes[i]? with
    | none => simpa only [NodeTable.step, call, hn] using h
    | some n =>
      simp only [NodeTable.step, call, hn]
      exact h.put hn (fun v hv => Credentials.clean_chown hv)
        fun e he => Credentials.chown_error he
  | wrote i truncate =>
    cases hn : t.nodes[i]? with
    | none => simpa only [NodeTable.step, call, hn] using h
    | some n =>
      simp only [NodeTable.step, call, hn]
      exact h.put hn (fun v hv => Credentials.clean_wrote n.owner n.kind truncate hc)
        fun e he => by cases he

/-- **No escalation.** Whatever calls one unprivileged caller makes, no call changes an owner or
gives set-user-ID to a node of another, no failed call changes anything, and no file the calls
created or changed runs with a group the caller is not in. -/
theorem no_escalation (hc : c.privileged = false) (nodes : List Node) (calls : List PermCall) :
    Runs.Along (step c) (Sealed c) ⟨nodes, []⟩ calls
      ∧ Runs.Always (step c) (Clean c) ⟨nodes, []⟩ calls := by
  constructor
  · exact Runs.along_of_step (I := fun _ => True) (fun _ _ _ => trivial)
      (fun t a _ => sealed hc t a) trivial calls
  · have hstep : ∀ t a, Clean c t → Clean c (step c t a) := fun t a h => h.step hc a
    exact Runs.always_of_step hstep (fun i hi => by cases hi) calls

/-- A caller in group 1000 and a set-group-ID directory of group 5: the new file loses its bit, and
neither `chmod` nor `chown` brings it back. -/
theorem no_escalation_foreign_group :
    let c : Credentials := ⟨1000, 1000, [1000], false, 0o022, by decide⟩
    let dir : Node := ⟨.directory, ⟨0o2777, 0, 5⟩⟩
    let calls := [.create 0 0o2775 .file, .chmod 1 0o2775, .chown 1 4294967295 1000, .chmod 0 0o777]
    Runs.Always (step c) (Clean c) ⟨[dir], []⟩ calls
      ∧ (calls.foldl (step c) ⟨[dir], []⟩).nodes = [dir, ⟨.file, ⟨0o775, 1000, 1000⟩⟩] :=
  ⟨(no_escalation rfl _ _).2, by decide⟩

end NodeTable

end Snare.Fs
