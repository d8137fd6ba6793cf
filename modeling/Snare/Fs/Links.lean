import Snare.Fs.Calls
import Snare.Lib.Runs

/-!
# Link counts and the shape of the tree

The tree is a flat map, so a call that adds, removes or moves a path has to keep two kinds of counts
by hand: how many paths name a file's inode, and how many directories are in a directory.

* **`Sound fs owed`**: the invariant, with what each directory's link count is owed on top of its
  two links and its child directories. A call that adds or removes a directory passes through states
  in which a parent is owed a link, or has one too many;
* **`Sound.moveTo`**: a rename moves a whole subtree, and only the two parents' counts change;
* **`Sound.call`**: every call keeps the invariant, whether it succeeds or fails.
-/

namespace Snare.Fs

open List

namespace VirtualFs

/-! ## The invariant -/

def namings (fs : VirtualFs) (inode : Nat) : Nat := fs.tree.tally fun _ node => node.inode = inode

def childDirs (fs : VirtualFs) (path : Path) : Nat :=
  fs.tree.tally fun p node => parentOf p = some path && node.isDir

def Rooted (tree : SortedMap Path VNode) : Prop :=
  ∀ p node, tree.get? p = some node → p ≠ [] → ∃ i, tree.get? p.dropLast = some (.dir i)

/-- Every node below a declared one is in a directory of the tree: a directory may be declared
without those above it. -/
def WellFormed (tree : SortedMap Path VNode) : Prop :=
  ∀ p node q node', tree.get? p = some node → tree.get? q = some node' → q <+: p → q ≠ p →
    ∃ i, tree.get? p.dropLast = some (.dir i)

theorem Rooted.wellFormed {tree : SortedMap Path VNode} (h : Rooted tree) : WellFormed tree := by
  intro p node q _ hp _ hpre hne
  refine h p node hp ?_
  rintro rfl
  exact hne (prefix_nil.mp hpre)

structure Linked (fs : VirtualFs) : Prop where
  rooted : Rooted fs.tree
  files : ∀ i, (fs.inodes i).kind ≠ .directory → (fs.inodes i).links = fs.namings i
  dirs : ∀ p i, fs.tree.get? p = some (.dir i) → (fs.inodes i).links = 2 + fs.childDirs p

def one (j i : Nat) : Int := if i = j then 1 else 0

theorem one_eq (j i : Nat) : one j i = (decide (i = j)).toNat := by
  unfold one
  split
  · next h => rw [decide_eq_true h]; rfl
  · next h => rw [decide_eq_false h]; rfl

/-- The invariant, up to the links `owed` says each directory has too many. -/
structure Sound (fs : VirtualFs) (owed : Nat → Int) : Prop where
  rooted : Rooted fs.tree
  kinds : ∀ p node, fs.tree.get? p = some node → (fs.inodes node.inode).kind = node.kind
  once : ∀ p q i, fs.tree.get? p = some (.dir i) → fs.tree.get? q = some (.dir i) → p = q
  fresh : ∀ p node, fs.tree.get? p = some node → node.inode < fs.nextInode
  files : ∀ i, (fs.inodes i).kind ≠ .directory → (fs.inodes i).links = fs.namings i
  dirs : ∀ p i, fs.tree.get? p = some (.dir i) →
    ((fs.inodes i).links : Int) = 2 + fs.childDirs p + owed i

theorem Sound.linked {fs : VirtualFs} (h : fs.Sound 0) : fs.Linked where
  rooted := h.rooted
  files := h.files
  dirs p i hp := by
    have hlinks := h.dirs p i hp
    simp only [Pi.zero_apply] at hlinks
    omega

end VirtualFs

/-! ## Paths above and below -/

variable {p : Path}

theorem parentOf_eq_some {q : Path} : parentOf p = some q ↔ p ≠ [] ∧ p.dropLast = q := by
  unfold parentOf
  split
  · next h => simp [h]
  · next h => simp [h]

theorem dropLast_ne (h : p ≠ []) : p.dropLast ≠ p := by
  intro heq
  have hlen := congrArg List.length heq
  rw [length_dropLast] at hlen
  have hpos := length_pos_of_ne_nil h
  omega

theorem get?_insert (tree : SortedMap Path VNode) (p q : Path) (node : VNode) :
    (tree.insert p node).get? q = if q = p then some node else tree.get? q := by
  by_cases h : q = p <;> simp [SortedMap.get?_insert, h]

theorem get?_erase (tree : SortedMap Path VNode) (p q : Path) :
    (tree.erase p).get? q = if q = p then none else tree.get? q := by
  by_cases h : q = p <;> simp [SortedMap.get?_erase, h]

theorem VirtualFs.WellFormed.between {tree : SortedMap Path VNode} (h : VirtualFs.WellFormed tree)
    {a q : Path} {top node : VNode} (ha : tree.get? a = some top) (hap : a <+: p)
    (hq : tree.get? q = some node) (hpre : p <+: q) (hne : p ≠ q) :
    ∃ i, tree.get? p = some (.dir i) := by
  obtain ⟨r, rfl⟩ := hpre
  induction r using List.reverseRecOn generalizing node with
  | nil => exact absurd (append_nil p).symm hne
  | append_singleton r x ih =>
    rw [← append_assoc] at hq
    have hbelow : a ≠ p ++ r ++ [x] := by
      rintro rfl
      have hlen := hap.length_le
      simp only [length_append, length_singleton] at hlen
      omega
    obtain ⟨i, hi⟩ := h _ node a top hq ha (hap.trans ⟨r ++ [x], (append_assoc ..).symm⟩) hbelow
    rw [dropLast_concat] at hi
    by_cases hr : r = []
    · subst hr
      rw [append_nil] at hi
      exact ⟨i, hi⟩
    · exact ih hi (by simpa using hr)

namespace VirtualFs

variable {fs : VirtualFs} {owed : Nat → Int} {p q to_ : Path} {j i : Nat}

theorem parent_eq_ok (h : fs.parent p = .ok j) :
    p ≠ [] ∧ fs.tree.get? p.dropLast = some (.dir j) := by
  unfold parent at h
  split at h
  · cases h
  · split at h
    · next inode hnode =>
      cases h
      obtain ⟨q, hq, hget⟩ := Option.bind_eq_some_iff.mp hnode
      obtain ⟨hne, rfl⟩ := parentOf_eq_some.mp hq
      exact ⟨hne, hget⟩
    · cases h

theorem parentNode_eq (hne : p ≠ []) : fs.parentNode p = fs.tree.get? p.dropLast := by
  rw [parentNode, parentOf, if_neg hne]
  rfl

/-! ## Link counts -/

theorem links_setLinks (fs : VirtualFs) (j : Nat) (f : Nat → Nat) (i : Nat) :
    ((fs.setLinks j f).inodes i).links
      = if i = j then f (fs.inodes j).links else (fs.inodes i).links := by
  simp only [setLinks, Function.update_apply]
  split <;> rfl

theorem kind_setLinks (fs : VirtualFs) (j : Nat) (f : Nat → Nat) (i : Nat) :
    ((fs.setLinks j f).inodes i).kind = (fs.inodes i).kind := by
  simp only [setLinks, Function.update_apply]
  split
  · next h => rw [h]
  · rfl

theorem Sound.setLinks (h : fs.Sound owed) (hj : (fs.inodes j).kind = .directory)
    {f : Nat → Nat} {owed' : Nat → Int}
    (howed : ∀ p i, fs.tree.get? p = some (.dir i) → owed' i =
      owed i + if i = j then (f (fs.inodes j).links : Int) - (fs.inodes j).links else 0) :
    (fs.setLinks j f).Sound owed' where
  rooted := h.rooted
  kinds p node hp := (fs.kind_setLinks j f _).trans (h.kinds p node hp)
  once := h.once
  fresh := h.fresh
  files i hi := by
    rw [kind_setLinks] at hi
    have hne : i ≠ j := by
      rintro rfl
      exact hi hj
    rw [links_setLinks, if_neg hne]
    exact h.files i hi
  dirs p i hp := by
    have hlinks := h.dirs p i hp
    have hchild : (fs.setLinks j f).childDirs p = fs.childDirs p := rfl
    rw [links_setLinks, hchild, howed p i hp]
    split
    · next heq =>
      subst heq
      omega
    · omega

theorem Sound.addLink (h : fs.Sound owed) (hj : (fs.inodes j).kind = .directory) :
    (fs.addLink j).Sound (owed + one j) := by
  refine h.setLinks hj fun p i _ => ?_
  simp only [Pi.add_apply, one]
  split <;> omega

theorem Sound.dropLink (h : fs.Sound owed) (hj : (fs.inodes j).kind = .directory)
    (hpos : 0 < (fs.inodes j).links) : (fs.dropLink j).Sound (owed - one j) := by
  refine h.setLinks hj fun p i _ => ?_
  simp only [Pi.sub_apply, one]
  split <;> omega

theorem Sound.dropParentLink (h : fs.Sound (owed + one j))
    (hne : p ≠ []) (hparent : fs.tree.get? p.dropLast = some (.dir j)) (howed : 0 ≤ owed j + 2) :
    (fs.dropParentLink p).Sound owed := by
  have hdrop : fs.dropParentLink p = fs.dropLink j := by
    rw [VirtualFs.dropParentLink, parentNode_eq hne, hparent]
  have hlinks := h.dirs _ j hparent
  have hone : one j j = 1 := if_pos rfl
  simp only [Pi.add_apply, hone] at hlinks
  have hkind : (fs.inodes j).kind = .directory := h.kinds _ _ hparent
  have hpos : 0 < (fs.inodes j).links := by omega
  have hdropped := h.dropLink hkind hpos
  rw [add_sub_cancel_right] at hdropped
  rwa [hdrop]

/-! ## One more path, or one less -/

variable {node source : VNode}

theorem WellFormed.not_below {tree : SortedMap Path VNode} (h : WellFormed tree) {a : Path}
    {top : VNode} (ha : tree.get? a = some top) (hap : a <+: p)
    (hp : ∀ i, tree.get? p ≠ some (.dir i)) (hq : tree.get? q = some node) (hne : q ≠ p) :
    ¬ p <+: q := by
  intro hpre
  obtain ⟨i, hi⟩ := h.between ha hap hq hpre (Ne.symm hne)
  exact hp i hi

theorem Rooted.insert {tree : SortedMap Path VNode} (h : Rooted tree) (hp : tree.get? p = none)
    (hparent : tree.get? p.dropLast = some (.dir j)) :
    Rooted (tree.insert p node) := by
  intro q node' hq hne
  have hkeep : ∀ q' i, tree.get? q' = some (.dir i) →
      (tree.insert p node).get? q' = some (.dir i) := by
    intro q' i hq'
    rw [SortedMap.get?_insert, if_neg]
    · exact hq'
    · rintro rfl
      cases hp.symm.trans hq'
  rw [SortedMap.get?_insert] at hq
  split at hq
  · next heq =>
    subst heq
    exact ⟨j, hkeep _ j hparent⟩
  · obtain ⟨i, hi⟩ := h q node' hq hne
    exact ⟨i, hkeep _ i hi⟩

theorem Rooted.erase {tree : SortedMap Path VNode} (h : Rooted tree)
    (hbelow : ∀ q node, tree.get? q = some node → q ≠ p → ¬ p <+: q) : Rooted (tree.erase p) := by
  intro q node hq hne
  rw [SortedMap.get?_erase] at hq
  split at hq
  · cases hq
  next hqp =>
  obtain ⟨i, hi⟩ := h q node hq hne
  refine ⟨i, ?_⟩
  rw [SortedMap.get?_erase, if_neg]
  · exact hi
  · intro heq
    exact hbelow q node hq hqp (heq ▸ dropLast_prefix q)

theorem Sound.dirs_iff (h : fs.Sound owed)
    (hp : fs.tree.get? p = some (.dir i)) (hq : fs.tree.get? q = some (.dir j)) :
    p = q ↔ i = j := by
  constructor
  · rintro rfl
    cases hp.symm.trans hq
    rfl
  · rintro rfl
    exact h.once p q i hp hq

/-- **A new node.** Its parent is owed a link if it is a directory. -/
theorem Sound.place (h : fs.Sound 0) (owner : Owner)
    (hnode : node.inode = fs.nextInode) (hp : fs.tree.get? p = none) (hne : p ≠ [])
    (hparent : fs.tree.get? p.dropLast = some (.dir j)) :
    (fs.place p node owner).Sound (if node.isDir then - one j else 0) := by
  have hold : ∀ q node', fs.tree.get? q = some node' → node'.inode ≠ node.inode := by
    intro q node' hq
    have := h.fresh q node' hq
    omega
  have hget : ∀ q, (fs.place p node owner).tree.get? q =
      if q = p then some node else fs.tree.get? q :=
    fun q => get?_insert fs.tree p q node
  have hinode : ∀ i, (fs.place p node owner).inodes i
      = if i = node.inode then .new node.kind owner else fs.inodes i :=
    fun i => Function.update_apply _ _ _ _
  have hfresh : fs.namings node.inode = 0 :=
    SortedMap.tally_eq_zero fun q node' hq => decide_eq_false (hold q node' hq)
  refine ⟨h.rooted.insert hp hparent, fun q node' hq => ?_, fun q q' i hq hq' => ?_,
    fun q node' hq => ?_, fun i hi => ?_, fun q i hq => ?_⟩
  · rw [hget] at hq
    rw [hinode]
    split at hq
    · cases hq
      rw [if_pos rfl]
      rfl
    · rw [if_neg (hold q node' hq)]
      exact h.kinds q node' hq
  · rw [hget] at hq hq'
    split at hq <;> split at hq'
    · next hqp hqp' => rw [hqp, hqp']
    · next hqp hqp' =>
      cases hq
      exact absurd rfl (hold q' (.dir i) hq')
    · next hqp hqp' =>
      cases hq'
      exact absurd rfl (hold q (.dir i) hq)
    · exact h.once q q' i hq hq'
  · rw [hget] at hq
    show node'.inode < fs.nextInode + 2
    split at hq
    · cases hq
      omega
    · have := h.fresh q node' hq
      omega
  · have hcount : (fs.place p node owner).namings i
        = fs.namings i + (decide (node.inode = i)).toNat := SortedMap.tally_insert hp node _
    rw [hcount]
    rw [hinode] at hi ⊢
    by_cases heq : i = node.inode
    · subst heq
      rw [if_pos rfl] at hi ⊢
      have hkind : node.kind ≠ .directory := hi
      simp [VInode.new, hkind, hfresh]
    · rw [if_neg heq] at hi ⊢
      have hcold : decide (node.inode = i) = false := decide_eq_false (Ne.symm heq)
      rw [hcold]
      exact h.files i hi
  · have hcount : (fs.place p node owner).childDirs q
        = fs.childDirs q + (decide (parentOf p = some q) && node.isDir).toNat :=
      SortedMap.tally_insert hp node _
    rw [hcount]
    rw [hget] at hq
    split at hq
    · next heq =>
      -- the new directory has no children yet
      subst heq
      cases hq
      have hnone : fs.childDirs q = 0 := by
        refine SortedMap.tally_eq_zero fun q' node' hq' => ?_
        have hnot : parentOf q' ≠ some q := by
          intro heq
          obtain ⟨hne', heq⟩ := parentOf_eq_some.mp heq
          obtain ⟨i', hi'⟩ := h.rooted q' node' hq' hne'
          rw [heq, hp] at hi'
          cases hi'
        simp [hnot]
      have hself : parentOf q ≠ some q := by
        intro heq
        obtain ⟨-, heq⟩ := parentOf_eq_some.mp heq
        rw [heq, hp] at hparent
        cases hparent
      have hij : i ≠ j := fun heq => hold _ _ hparent heq.symm
      rw [hinode, hnone, decide_eq_false hself]
      simp [VInode.new, one, hij]
    · next hqp =>
      have hlinks := h.dirs q i hq
      have hiff := h.dirs_iff hparent hq
      have hi : i ≠ node.inode := hold q (.dir i) hq
      rw [hinode, if_neg hi]
      have hdec : decide (parentOf p = some q) = decide (i = j) := by
        rw [decide_eq_decide, parentOf_eq_some, and_iff_right hne, hiff, eq_comm]
      rw [hdec]
      cases node.isDir with
      | false => simpa using hlinks
      | true =>
        simp only [Pi.zero_apply] at hlinks
        simp only [Bool.and_true, if_true, Pi.neg_apply, one_eq]
        omega

theorem get?_of_erase {tree : SortedMap Path VNode}
    (h : (tree.erase p).get? q = some node) : q ≠ p ∧ tree.get? q = some node := by
  rw [get?_erase] at h
  split at h
  · cases h
  · next hne => exact ⟨hne, h⟩

theorem Sound.inode_ne (h : fs.Sound owed)
    (hp : fs.tree.get? p = some (.dir i)) (hq : fs.tree.get? q = some node) (hnode : ¬ node.isDir) :
    i ≠ node.inode := by
  rintro rfl
  have hkind : node.kind = .directory := (h.kinds q node hq).symm.trans (h.kinds p _ hp)
  exact hnode (by simp [VNode.isDir, hkind])

/-- **A file or a symbolic link loses a path.** -/
theorem Sound.removeEntry (h : fs.Sound 0)
    (hp : fs.tree.get? p = some node) (hnode : ¬ node.isDir) : (fs.removeEntry p node).Sound 0 := by
  have hnot : ∀ i, fs.tree.get? p ≠ some (.dir i) := by
    intro i hi
    cases hp.symm.trans hi
    exact hnode rfl
  have hkind : ∀ i, ((fs.removeEntry p node).inodes i).kind = (fs.inodes i).kind :=
    kind_setLinks { fs with tree := fs.tree.erase p } node.inode (· - 1)
  have hlinks : ∀ i, ((fs.removeEntry p node).inodes i).links
      = if i = node.inode then (fs.inodes node.inode).links - 1 else (fs.inodes i).links :=
    links_setLinks { fs with tree := fs.tree.erase p } node.inode (· - 1)
  refine ⟨h.rooted.erase fun q node' hq hne =>
      h.rooted.wellFormed.not_below hp (prefix_refl p) hnot hq hne,
    fun q node' hq => ?_, fun q q' i hq hq' => ?_, fun q node' hq => ?_, fun i hi => ?_,
    fun q i hq => ?_⟩
  · exact (hkind _).trans (h.kinds q node' (get?_of_erase hq).2)
  · exact h.once q q' i (get?_of_erase hq).2 (get?_of_erase hq').2
  · exact h.fresh q node' (get?_of_erase hq).2
  · have hcount : (fs.removeEntry p node).namings i + (decide (node.inode = i)).toNat
        = fs.namings i := SortedMap.tally_erase hp _
    have hfiles := h.files i ((hkind i).symm.trans_ne hi)
    rw [hlinks]
    split
    · next heq =>
      rw [heq] at hcount hfiles ⊢
      simp only [decide_true, Bool.toNat_true] at hcount
      omega
    · next hne =>
      rw [decide_eq_false (Ne.symm hne)] at hcount
      exact hfiles.trans hcount.symm
  · obtain ⟨-, hq⟩ := get?_of_erase hq
    have hcount : (fs.removeEntry p node).childDirs q
        + (decide (parentOf p = some q) && node.isDir).toNat = fs.childDirs q :=
      SortedMap.tally_erase hp _
    rw [Bool.eq_false_iff.mpr hnode, Bool.and_false] at hcount
    rw [hlinks, if_neg (h.inode_ne hq hp hnode), h.dirs q i hq, ← hcount]
    rfl

theorem tree_removeDir (fs : VirtualFs) (host : Host) (p : Path) (i : Nat) :
    (fs.removeDir host p i).tree = fs.tree.erase p := by
  unfold VirtualFs.removeDir
  split <;> rfl

theorem not_prefix_of_hasBelow (hbelow : fs.hasBelow p = false)
    (hq : fs.tree.get? q = some node) (hne : q ≠ p) : ¬ p <+: q := by
  intro hpre
  have hmem : q ∈ fs.tree.keys := SortedMap.mem_keys_iff.mpr ⟨node, hq⟩
  have hfalse := any_eq_false.mp hbelow q hmem
  simp [hne, hpre] at hfalse

/-- **An empty directory is removed.** Its parent has a link too many. -/
theorem Sound.removeDir (h : fs.Sound 0) (host : Host)
    (hp : fs.tree.get? p = some (.dir i)) (hne : p ≠ [])
    (hparent : fs.tree.get? p.dropLast = some (.dir j)) (hbelow : fs.hasBelow p = false) :
    (fs.removeDir host p i).Sound (one j) := by
  have hempty : ∀ q node, fs.tree.get? q = some node → q ≠ p → ¬ p <+: q :=
    fun q node hq hqp => not_prefix_of_hasBelow hbelow hq hqp
  have herase : VirtualFs.Sound { fs with tree := fs.tree.erase p } (one j) := by
    refine ⟨h.rooted.erase hempty, fun q node hq => h.kinds q node (get?_of_erase hq).2,
      fun q q' i hq hq' => h.once q q' i (get?_of_erase hq).2 (get?_of_erase hq').2,
      fun q node hq => h.fresh q node (get?_of_erase hq).2, fun k hk => ?_, fun q k hq => ?_⟩
    · have hcount : (fs.tree.erase p).tally (fun _ node => node.inode = k)
          + (decide (i = k)).toNat = fs.namings k := SortedMap.tally_erase hp _
      have hik : i ≠ k := by
        rintro rfl
        exact hk (h.kinds p _ hp)
      rw [decide_eq_false hik] at hcount
      exact (h.files k hk).trans hcount.symm
    · obtain ⟨-, hq⟩ := get?_of_erase hq
      have hcount : (fs.tree.erase p).tally (fun q' node => parentOf q' = some q && node.isDir)
          + (decide (parentOf p = some q)).toNat = fs.childDirs q := by
        have := SortedMap.tally_erase hp fun q' node => parentOf q' = some q && node.isDir
        rwa [VNode.isDir_dir, Bool.and_true] at this
      have hdec : decide (parentOf p = some q) = decide (k = j) := by
        rw [decide_eq_decide, parentOf_eq_some, and_iff_right hne, h.dirs_iff hparent hq, eq_comm]
      have hlinks := h.dirs q k hq
      rw [hdec] at hcount
      show ((fs.inodes k).links : Int)
        = 2 + ((fs.tree.erase p).tally fun q' node => parentOf q' = some q && node.isDir) + one j k
      simp only [Pi.zero_apply] at hlinks
      rw [one_eq]
      omega
  unfold VirtualFs.removeDir
  split
  · have hkind : (fs.inodes i).kind = .directory := h.kinds p _ hp
    refine herase.setLinks hkind fun q k hq => ?_
    obtain ⟨hqp, hq⟩ := get?_of_erase hq
    have hki : k ≠ i := fun heq => hqp (h.once q p k hq (heq ▸ hp))
    rw [if_neg hki, add_zero]
  · exact herase

/-- **A second path for a file or a symbolic link.** -/
theorem Sound.addEntry (h : fs.Sound 0)
    (hq : fs.tree.get? q = some node) (hnode : ¬ node.isDir) (hp : fs.tree.get? p = none)
    (hparent : fs.tree.get? p.dropLast = some (.dir j)) : (fs.addEntry node p).Sound 0 := by
  have hget : ∀ q', (fs.addEntry node p).tree.get? q' =
      if q' = p then some node else fs.tree.get? q' :=
    fun q' => get?_insert fs.tree p q' node
  have hdir : ∀ q' i, (fs.addEntry node p).tree.get? q' = some (.dir i) →
      fs.tree.get? q' = some (.dir i) := by
    intro q' i hq'
    rw [hget] at hq'
    split at hq'
    · cases hq'
      exact absurd rfl hnode
    · exact hq'
  refine ⟨h.rooted.insert hp hparent, fun q' node' hq' => ?_, fun q₁ q₂ i hq₁ hq₂ => ?_,
    fun q' node' hq' => ?_, fun i hi => ?_, fun q' i hq' => ?_⟩
  · refine (kind_setLinks fs node.inode _ _).trans ?_
    rw [hget] at hq'
    split at hq'
    · cases hq'
      exact h.kinds q node hq
    · exact h.kinds q' node' hq'
  · exact h.once q₁ q₂ i (hdir q₁ i hq₁) (hdir q₂ i hq₂)
  · rw [hget] at hq'
    split at hq'
    · cases hq'
      exact h.fresh q node hq
    · exact h.fresh q' node' hq'
  · have hcount : (fs.addEntry node p).namings i = fs.namings i + (decide (node.inode = i)).toNat :=
      SortedMap.tally_insert hp node _
    have hfiles := h.files i ((kind_setLinks fs node.inode _ _).symm.trans_ne hi)
    have hlinks : ((fs.addEntry node p).inodes i).links
        = if i = node.inode then (fs.inodes node.inode).links + 1 else (fs.inodes i).links :=
      links_setLinks _ _ _ _
    rw [hlinks, hcount]
    split
    · next heq =>
      rw [heq] at hfiles ⊢
      rw [hfiles, decide_eq_true rfl]
      rfl
    · next hne =>
      rw [hfiles, decide_eq_false (Ne.symm hne)]
      rfl
  · have hold := hdir q' i hq'
    have hcount : (fs.addEntry node p).childDirs q'
        = fs.childDirs q' + (decide (parentOf p = some q') && node.isDir).toNat :=
      SortedMap.tally_insert hp node _
    have hlinks : ((fs.addEntry node p).inodes i).links = (fs.inodes i).links :=
      (links_setLinks _ _ _ _).trans (if_neg (h.inode_ne hold hq hnode))
    rw [Bool.eq_false_iff.mpr hnode, Bool.and_false] at hcount
    rw [hlinks, hcount, h.dirs q' i hold]
    rfl

/-! ## Moving a subtree -/

section Move

variable {from_ to_ : Path} {source : VNode} (hwf : WellFormed fs.tree) (h : fs.Sound owed)
  (hfrom : fs.tree.get? from_ = some source) (hnot : ¬ from_ <+: to_)
  (hfree : ∀ q node, fs.tree.get? q = some node → ¬ to_ <+: q)
include hfrom

section
include hwf

theorem sent_eq_rebase {k : Path} {node : VNode} (hk : fs.tree.get? k = some node) :
    SortedMap.sent (fs.moving from_ source.isDir) (destination from_ to_) k
      = rebase from_ to_ k := by
  have hmem : k ∈ fs.moving from_ source.isDir ↔ from_ <+: k := by
    have hkey : k ∈ fs.tree.keys := SortedMap.mem_keys_iff.mpr ⟨node, hk⟩
    simp only [moving, mem_filter, hkey, true_and, Bool.or_eq_true, Bool.and_eq_true,
      decide_eq_true_eq]
    constructor
    · rintro (rfl | ⟨-, hpre⟩)
      · exact prefix_refl k
      · exact hpre
    · intro hpre
      by_cases heq : k = from_
      · exact .inl heq
      · -- only a directory has something below it
        obtain ⟨i, hi⟩ := hwf.between hfrom (prefix_refl from_) hk hpre (Ne.symm heq)
        cases hfrom.symm.trans hi
        exact .inr ⟨rfl, hpre⟩
  unfold SortedMap.sent
  split
  · next hin =>
    obtain ⟨r, rfl⟩ := hmem.mp hin
    rw [rebase_append, destination]
    split
    · next heq =>
      obtain rfl : r = [] := by simpa using heq
      rw [append_nil]
    · rw [drop_left]
  · next hout => rw [rebase_outside fun hpre => hout (hmem.mpr hpre)]

include hfree

theorem sent_inj (k : Path) (node : VNode) (k' : Path) (node' : VNode)
    (hk : fs.tree.get? k = some node) (hk' : fs.tree.get? k' = some node')
    (heq : SortedMap.sent (fs.moving from_ source.isDir) (destination from_ to_) k
      = SortedMap.sent (fs.moving from_ source.isDir) (destination from_ to_) k') : k = k' := by
  rw [sent_eq_rebase hwf hfrom hk, sent_eq_rebase hwf hfrom hk'] at heq
  exact rebase_inj (hfree k node hk) (hfree k' node' hk') heq

theorem get?_moveTo (q : Path) (node : VNode) :
    (fs.moveTo from_ to_ source.isDir).tree.get? q = some node ↔
      ∃ q', rebase from_ to_ q' = q ∧ fs.tree.get? q' = some node := by
  refine (SortedMap.get?_relocate (sent_inj hwf hfrom hfree)
    (fs.tree.nodup_keys.filter _) q node).trans ?_
  constructor
  · rintro ⟨q', hq', hget⟩
    exact ⟨q', (sent_eq_rebase hwf hfrom hget).symm.trans hq', hget⟩
  · rintro ⟨q', hq', hget⟩
    exact ⟨q', (sent_eq_rebase hwf hfrom hget).trans hq', hget⟩

theorem tally_moveTo (P : Path → VNode → Bool) : (fs.moveTo from_ to_ source.isDir).tree.tally P
      = fs.tree.tally fun q node => P (rebase from_ to_ q) node := by
  refine (SortedMap.tally_relocate (sent_inj hwf hfrom hfree)
    (fs.tree.nodup_keys.filter _) P).trans ?_
  exact SortedMap.tally_congr fun q node hq => by rw [sent_eq_rebase hwf hfrom hq]

end

include h hfree hnot

theorem parentOf_rebase {k p : Path} {node : VNode} {i j : Nat} (hk : fs.tree.get? k = some node)
    (hp : fs.tree.get? p = some (.dir i)) (htne : to_ ≠ [])
    (htp : fs.tree.get? to_.dropLast = some (.dir j)) :
    parentOf (rebase from_ to_ k) = some (rebase from_ to_ p) ↔
      if k = from_ then i = j else parentOf k = some p := by
  have hroot : from_ ≠ [] := by
    rintro rfl
    exact hnot nil_prefix
  have hstays : rebase from_ to_ to_.dropLast = to_.dropLast :=
    rebase_outside fun hpre => hnot (hpre.trans ( dropLast_prefix to_))
  split
  · next heq =>
    rw [heq, rebase_self, parentOf_eq_some, and_iff_right htne, ← hstays]
    constructor
    · intro hsame
      have hpath := rebase_inj (hfree _ _ htp) (hfree _ _ hp) hsame
      exact ((h.dirs_iff htp hp).mp hpath).symm
    · rintro rfl
      rw [h.once _ _ i htp hp]
  · next hne =>
    rw [parentOf_eq_some, parentOf_eq_some, dropLast_rebase hne]
    by_cases hk' : k = []
    · subst hk'
      have hnil : rebase from_ to_ [] = [] :=
        rebase_outside fun hpre => hroot (prefix_nil.mp hpre)
      simp [hnil]
    · have hne' : rebase from_ to_ k ≠ [] := by
        by_cases hpre : from_ <+: k
        · obtain ⟨r, rfl⟩ := hpre
          rw [rebase_append]
          simp [htne]
        · rwa [rebase_outside hpre]
      obtain ⟨i', hi'⟩ := h.rooted k node hk hk'
      simp only [hne', hk', ne_eq, not_false_eq_true, true_and]
      exact ⟨fun hsame => rebase_inj (hfree _ _ hi') (hfree _ _ hp) hsame, fun heq => by rw [heq]⟩

/-- **A subtree moves.** Its old parent has a link too many, and its new one is owed one. -/
theorem Sound.moveTo {jf jt : Nat} (hfp : fs.tree.get? from_.dropLast = some (.dir jf))
    (htne : to_ ≠ []) (htp : fs.tree.get? to_.dropLast = some (.dir jt)) :
    (fs.moveTo from_ to_ source.isDir).Sound
      (if source.isDir then owed + one jf - one jt else owed) := by
  have hget := get?_moveTo h.rooted.wellFormed hfrom hfree
  have hroot : from_ ≠ [] := by
    rintro rfl
    exact hnot nil_prefix
  refine ⟨fun q node hq hne => ?_, fun q node hq => ?_, fun q q' i hq hq' => ?_,
    fun q node hq => ?_, fun i hi => ?_, fun q i hq => ?_⟩
  · obtain ⟨k, rfl, hk⟩ := (hget q node).mp hq
    by_cases heq : k = from_
    · subst heq
      have hstays : rebase k to_ to_.dropLast = to_.dropLast :=
        rebase_outside fun hpre => hnot (hpre.trans ( dropLast_prefix to_))
      exact ⟨jt, (hget _ _).mpr ⟨to_.dropLast, by rw [hstays, rebase_self], htp⟩⟩
    · have hk' : k ≠ [] := by
        rintro rfl
        exact hne (rebase_outside fun hpre => hroot (prefix_nil.mp hpre))
      obtain ⟨i, hi⟩ := h.rooted k node hk hk'
      exact ⟨i, (hget _ _).mpr ⟨k.dropLast, (dropLast_rebase heq).symm, hi⟩⟩
  · obtain ⟨k, rfl, hk⟩ := (hget q node).mp hq
    exact h.kinds k node hk
  · obtain ⟨k, rfl, hk⟩ := (hget q _).mp hq
    obtain ⟨k', rfl, hk'⟩ := (hget q' _).mp hq'
    rw [h.once k k' i hk hk']
  · obtain ⟨k, rfl, hk⟩ := (hget q node).mp hq
    exact h.fresh k node hk
  · have hcount := tally_moveTo h.rooted.wellFormed hfrom hfree fun _ node => node.inode = i
    exact (h.files i hi).trans hcount.symm
  · obtain ⟨p, rfl, hp⟩ := (hget q _).mp hq
    have hcount : (fs.moveTo from_ to_ source.isDir).childDirs (rebase from_ to_ p)
        = fs.tree.tally fun k node =>
          parentOf (rebase from_ to_ k) = some (rebase from_ to_ p) && node.isDir :=
      tally_moveTo h.rooted.wellFormed hfrom hfree _
    -- every other path keeps its parent; the subtree's own root changes it
    have hnew := SortedMap.tally_erase hfrom fun k node =>
      parentOf (rebase from_ to_ k) = some (rebase from_ to_ p) && node.isDir
    have hold := SortedMap.tally_erase hfrom fun k node => parentOf k = some p && node.isDir
    have hsame : (fs.tree.erase from_).tally (fun k node =>
        parentOf (rebase from_ to_ k) = some (rebase from_ to_ p) && node.isDir)
        = (fs.tree.erase from_).tally fun k node => parentOf k = some p && node.isDir := by
      refine SortedMap.tally_congr fun k node hk => ?_
      obtain ⟨hne, hk⟩ := get?_of_erase hk
      have hiff := parentOf_rebase h hfrom hnot hfree hk hp htne htp
      rw [if_neg hne] at hiff
      rw [decide_eq_decide.mpr hiff]
    have hto : decide (parentOf (rebase from_ to_ from_) = some (rebase from_ to_ p))
        = decide (i = jt) := by
      have hiff := parentOf_rebase h hfrom hnot hfree hfrom hp htne htp
      rw [if_pos rfl] at hiff
      exact decide_eq_decide.mpr hiff
    have hout : decide (parentOf from_ = some p) = decide (i = jf) := by
      rw [decide_eq_decide, parentOf_eq_some, and_iff_right hroot, h.dirs_iff hfp hp, eq_comm]
    have hlinks := h.dirs p i hp
    have hkeep : ((fs.moveTo from_ to_ source.isDir).inodes i).links = (fs.inodes i).links := rfl
    have hchild : fs.childDirs p = fs.tree.tally fun k node => parentOf k = some p && node.isDir :=
      rfl
    rw [hsame, hto] at hnew
    rw [hout, ← hchild] at hold
    rw [hkeep, hcount, ← hnew, hlinks, ← hold]
    generalize (fs.tree.erase from_).tally _ = rest
    generalize source.isDir = directory
    cases directory with
    | false => simp
    | true =>
      simp only [Bool.and_true, if_true, Pi.add_apply, Pi.sub_apply, one_eq]
      omega

end Move

/-! ## What the checks let through -/

section Checks

variable {host : Host} {env : Env} {raw : Option (List Byte)} {p : Path}

theorem rmdirChecks_eq_ok {i : Nat} (h : fs.rmdirChecks host env raw = .ok (p, i)) :
    fs.tree.get? p = some (.dir i) ∧ p ≠ [] ∧ fs.hasBelow p = false := by
  simp only [rmdirChecks, bind_eq_ok, refuse_eq_ok] at h
  obtain ⟨⟨raw', path⟩, -, path', -, -, -, -, hroot, h⟩ := h
  split at h
  · cases h
  next node hnode =>
  obtain ⟨-, -, h⟩ := bind_eq_ok.mp h
  cases node with
  | file i => cases h
  | symlink i target => cases h
  | dir i =>
    simp only [bind_eq_ok, refuse_eq_ok] at h
    obtain ⟨-, hbelow, h⟩ := h
    cases h
    exact ⟨hnode, hroot, Bool.eq_false_iff.mpr hbelow⟩

theorem unlinkChecks_eq_ok {node : VNode} (h : fs.unlinkChecks host env raw = .ok (p, node)) :
    fs.tree.get? p = some node ∧ ¬ node.isDir := by
  simp only [unlinkChecks, bind_eq_ok] at h
  obtain ⟨⟨raw', path⟩, -, path', -, h⟩ := h
  split at h
  · split at h <;> cases h
  next node' hnode =>
  simp only [bind_eq_ok, refuse_eq_ok] at h
  obtain ⟨-, -, -, -, -, -, -, hdir, h⟩ := h
  cases h
  exact ⟨hnode, hdir⟩

theorem not_contains_iff : ¬ fs.contains p ↔ fs.tree.get? p = none := by
  rw [contains, Bool.not_eq_true, Option.isSome_eq_false_iff, Option.isNone_iff_eq_none]

variable {j : Nat}

theorem mkdirChecks_eq_ok (h : fs.mkdirChecks host env raw = .ok (p, j)) :
    fs.tree.get? p = none ∧ fs.parent p = .ok j := by
  simp only [mkdirChecks, bind_eq_ok, refuse_eq_ok, orErr_eq_ok] at h
  obtain ⟨⟨raw', path⟩, -, path', -, -, -, -, hnew, parent, hparent, -, -, h⟩ := h
  cases h
  exact ⟨not_contains_iff.mp hnew, hparent⟩

theorem symlinkChecks_eq_ok {target link : Option (List Byte)} {bytes : List Byte}
    (h : fs.symlinkChecks host env target link = .ok (p, j, bytes)) :
    fs.tree.get? p = none ∧ fs.parent p = .ok j := by
  simp only [symlinkChecks, bind_eq_ok, refuse_eq_ok] at h
  obtain ⟨⟨raw', path⟩, -, -, -, -, -, -, -, h⟩ := h
  split at h
  · cases h
  simp only [bind_eq_ok, refuse_eq_ok, orErr_eq_ok] at h
  obtain ⟨-, -, path', -, -, hnew, parent, hparent, -, -, -, -, h⟩ := h
  cases h
  exact ⟨not_contains_iff.mp hnew, hparent⟩

theorem linkChecks_eq_ok {from_ to_ : Option (List Byte)} {node : VNode}
    (h : fs.linkChecks host env from_ to_ = .ok (node, p)) :
    (∃ q, fs.tree.get? q = some node) ∧ ¬ node.isDir ∧ fs.tree.get? p = none
      ∧ ∃ j, fs.parent p = .ok j := by
  simp only [linkChecks, bind_eq_ok, refuse_eq_ok] at h
  obtain ⟨from', -, to', -, source, -, target, -, -, -, -, -, -, -, source', -, target', -, h⟩ := h
  split at h
  · cases h
  next node' hnode =>
  simp only [bind_eq_ok, refuse_eq_ok, orErr_eq_ok] at h
  obtain ⟨-, hdir, -, -, -, -, -, -, -, hnew, parent, hparent, -, -, h⟩ := h
  cases h
  exact ⟨⟨source', hnode⟩, hdir, not_contains_iff.mp hnew, parent, hparent⟩

theorem createChecks_eq_ok {flags : OpenFlags} {q : Path}
    (h : fs.createChecks env p flags = .ok (.create q j)) : q = p ∧ fs.parent p = .ok j := by
  unfold createChecks at h
  split at h
  · simp only [bind_eq_ok, orErr_eq_ok] at h
    obtain ⟨parent, hparent, -, -, h⟩ := h
    cases h
    exact ⟨rfl, hparent⟩
  · split at h <;> cases h

theorem openChecks_eq_ok {flags : OpenFlags}
    (h : fs.openChecks host env raw flags = .ok (.create p j)) :
    fs.tree.get? p = none ∧ fs.parent p = .ok j := by
  simp only [openChecks, bind_eq_ok, refuse_eq_ok] at h
  obtain ⟨⟨raw', path⟩, -, -, -, -, -, -, -, path', -, -, -, -, -, -, -, -, -, -, -,
    -, -, -, -, -, -, h⟩ := h
  split at h
  · cases h
  · obtain ⟨-, -, h⟩ := bind_eq_ok.mp h
    cases h
  · next hnode =>
    obtain ⟨rfl, hparent⟩ := createChecks_eq_ok h
    exact ⟨hnode, hparent⟩

theorem renameChecks_eq_ok {toRaw : Option (List Byte)} {r : Rename}
    (h : fs.renameChecks host env raw toRaw = .ok r) :
    fs.tree.get? r.from_ = some r.source ∧ r.from_ ≠ r.to_
      ∧ fs.parent r.to_ = .ok r.targetParent ∧ r.target = fs.tree.get? r.to_
      ∧ ¬ (r.source.isDir ∧ r.from_ <+: r.to_)
      ∧ fs.replaceable r.to_ r.source r.target = .ok () := by
  simp only [renameChecks, bind_eq_ok, refuse_eq_ok] at h
  obtain ⟨from', -, to', -, from₁, -, to₁, -, -, -, -, -, -, -, -, -, from₂, -, to₂, -, -, -, h⟩ :=
    h
  split at h
  · split at h <;> cases h
  next source hsource =>
  simp only [bind_eq_ok, refuse_eq_ok, orErr_eq_ok] at h
  obtain ⟨-, -, -, hne, -, -, parent, hparent, -, -, -, -, -, hpre, -, -, ⟨⟩, hrepl, h⟩ := h
  cases h
  exact ⟨hsource, hne, hparent, rfl, hpre, hrepl⟩

theorem replaceable_eq_ok {source target : VNode}
    (h : fs.replaceable p source (some target) = .ok ()) :
    source.isDir = target.isDir ∧ (target.isDir → fs.hasBelow p = false) := by
  simp only [replaceable, bind_eq_ok, refuse_eq_ok] at h
  obtain ⟨-, hnot, -, hnot', hbelow⟩ := h
  cases hs : source.isDir <;> cases ht : target.isDir <;> simp_all

end Checks

/-! ## Every call -/

variable (h : fs.Sound 0) (host : Host) (env : Env)
include h

theorem Sound.rmdir (raw : Option (List Byte)) : (fs.rmdir host env raw).1.Sound 0 := by
  unfold VirtualFs.rmdir
  cases hchecks : fs.rmdirChecks host env raw with
  | error reply => exact h
  | ok found =>
    obtain ⟨p, i⟩ := found
    obtain ⟨hp, hne, hbelow⟩ := rmdirChecks_eq_ok hchecks
    obtain ⟨j, hparent⟩ := h.rooted p _ hp hne
    have hremoved := h.removeDir host hp hne hparent hbelow
    have hparent' : (fs.removeDir host p i).tree.get? p.dropLast = some (.dir j) := by
      rw [tree_removeDir, get?_erase, if_neg (dropLast_ne hne)]
      exact hparent
    rw [← zero_add (one j)] at hremoved
    exact hremoved.dropParentLink hne hparent' (by simp)

theorem Sound.unlink (raw : Option (List Byte)) : (fs.unlink host env raw).1.Sound 0 := by
  unfold VirtualFs.unlink
  cases hchecks : fs.unlinkChecks host env raw with
  | error reply => exact h
  | ok found =>
    obtain ⟨hp, hnode⟩ := unlinkChecks_eq_ok hchecks
    exact h.removeEntry hp hnode

theorem Sound.mkdir (raw : Option (List Byte)) (mode : Mode) :
    (fs.mkdir host env raw mode).1.Sound 0 := by
  unfold VirtualFs.mkdir
  cases hchecks : fs.mkdirChecks host env raw with
  | error reply => exact h
  | ok found =>
    obtain ⟨p, j⟩ := found
    obtain ⟨hp, hparent⟩ := mkdirChecks_eq_ok hchecks
    obtain ⟨hne, hparent⟩ := parent_eq_ok hparent
    have hlinked : ∀ owner, ((fs.place p (.dir fs.nextInode) owner).addLink j).Sound 0 := by
      intro owner
      have hplaced : (fs.place p (.dir fs.nextInode) owner).Sound (- one j) :=
        h.place owner rfl hp hne hparent
      have hparent' : (fs.place p (.dir fs.nextInode) owner).tree.get? p.dropLast = some (.dir j) :=
        (get?_insert fs.tree p p.dropLast (.dir fs.nextInode)).trans
          ((if_neg (dropLast_ne hne)).trans hparent)
      have hadded := hplaced.addLink (hplaced.kinds _ _ hparent')
      rwa [VNode.inode_dir, neg_add_cancel] at hadded
    exact hlinked _

theorem Sound.symlink (target link : Option (List Byte)) :
    (fs.symlink host env target link).1.Sound 0 := by
  unfold VirtualFs.symlink
  cases hchecks : fs.symlinkChecks host env target link with
  | error reply => exact h
  | ok found =>
    obtain ⟨p, j, bytes⟩ := found
    obtain ⟨hp, hparent⟩ := symlinkChecks_eq_ok hchecks
    obtain ⟨hne, hparent⟩ := parent_eq_ok hparent
    have hplaced : ∀ owner, (fs.place p (.symlink fs.nextInode bytes) owner).Sound 0 :=
      fun owner => h.place owner rfl hp hne hparent
    exact hplaced _

theorem Sound.link (from_ to_ : Option (List Byte)) : (fs.link host env from_ to_).1.Sound 0 := by
  unfold VirtualFs.link
  cases hchecks : fs.linkChecks host env from_ to_ with
  | error reply => exact h
  | ok found =>
    obtain ⟨⟨q, hq⟩, hnode, hp, j, hparent⟩ := linkChecks_eq_ok hchecks
    exact h.addEntry hq hnode hp (parent_eq_ok hparent).2

theorem Sound.takeNumber : fs.takeNumber.Sound 0 :=
  { h with fresh := fun p node hp => Nat.lt_add_right 2 (h.fresh p node hp) }

theorem Sound.open_ (raw : Option (List Byte)) (flags : OpenFlags) (mode : Mode)
    (fd : Except Errno Nat) (cleared : Except Errno Unit) :
    (fs.open_ host env raw flags mode fd cleared).1.Sound 0 := by
  unfold VirtualFs.open_
  split
  · exact h
  · split <;> exact h
  · cases hchecks : fs.openChecks host env raw flags with
    | error reply => exact h
    | ok opening =>
      cases opening with
      | existing inode =>
        cases fd with
        | error errno => exact h
        | ok fd => exact h
      | create p j =>
        cases fd with
        | error errno => exact h.takeNumber
        | ok fd =>
          obtain ⟨hp, hparent⟩ := openChecks_eq_ok hchecks
          obtain ⟨hne, hparent⟩ := parent_eq_ok hparent
          have hplaced : ∀ owner, (fs.place p (.file fs.nextInode) owner).Sound 0 :=
            fun owner => h.place owner rfl hp hne hparent
          exact hplaced _

omit h in
theorem tree_removeTarget (fs : VirtualFs) (host : Host) (to_ : Path) :
    (fs.removeTarget host to_ (fs.tree.get? to_)).tree = fs.tree.erase to_ := by
  unfold VirtualFs.removeTarget
  split
  · next hnone =>
    refine SortedMap.ext_get? fun q => ?_
    rw [get?_erase]
    split
    · next heq => rw [heq, hnone]
    · rfl
  · split
    · exact tree_removeDir fs host to_ _
    · rfl

omit h in
/-- **What a rename replaces has nothing below it.** -/
theorem not_below_target (hwf : WellFormed fs.tree)
    (hparent : fs.tree.get? to_.dropLast = some (.dir j))
    (hrepl : fs.replaceable to_ source (fs.tree.get? to_) = .ok ())
    (hq : fs.tree.get? q = some node) (hne : q ≠ to_) : ¬ to_ <+: q := by
  have hparent_pre := dropLast_prefix to_
  cases htarget : fs.tree.get? to_ with
  | none =>
    refine hwf.not_below hparent hparent_pre (fun i hi => ?_) hq hne
    cases htarget.symm.trans hi
  | some target =>
    rw [htarget] at hrepl
    obtain ⟨-, hempty⟩ := replaceable_eq_ok hrepl
    cases hdir : target.isDir with
    | true => exact not_prefix_of_hasBelow (hempty hdir) hq hne
    | false =>
      refine hwf.not_below hparent hparent_pre (fun i hi => ?_) hq hne
      cases htarget.symm.trans hi
      exact Bool.true_eq_false.mp hdir

theorem Sound.removeTarget (hne : to_ ≠ []) (hparent : fs.tree.get? to_.dropLast = some (.dir j))
    (hrepl : fs.replaceable to_ source (fs.tree.get? to_) = .ok ()) :
    (fs.removeTarget host to_ (fs.tree.get? to_)).Sound
      (if (fs.tree.get? to_).any (·.isDir) then one j else 0) := by
  cases htarget : fs.tree.get? to_ with
  | none => exact h
  | some target =>
    rw [htarget] at hrepl
    obtain ⟨-, hempty⟩ := replaceable_eq_ok hrepl
    cases hdir : target.isDir with
    | true =>
      have hbelow := hempty hdir
      have hnode := VNode.isDir_iff.mp hdir
      generalize target.inode = i at hnode
      subst hnode
      exact h.removeDir host htarget hne hparent hbelow
    | false =>
      have hnode : ¬ target.isDir := Bool.eq_false_iff.mp hdir
      have hremoved : fs.removeTarget host to_ (some target) = fs.removeEntry to_ target :=
        if_neg hnode
      have howed : (some target).any (·.isDir) = false := hdir
      rw [hremoved, howed]
      exact h.removeEntry htarget hnode

omit h in
theorem tree_dropParentLink (fs : VirtualFs) (p : Path) : (fs.dropParentLink p).tree = fs.tree := by
  unfold VirtualFs.dropParentLink
  split <;> rfl

omit h in
theorem Sound.relink {r : Rename} {jf : Nat}
    (h : fs.Sound ((if r.target.any (·.isDir) then one r.targetParent else 0) + one jf
      - one r.targetParent))
    (hne : r.from_ ≠ []) (hfp : fs.tree.get? r.from_.dropLast = some (.dir jf))
    (htp : fs.tree.get? r.to_.dropLast = some (.dir r.targetParent)) : (fs.relink r).Sound 0 := by
  rw [add_sub_right_comm] at h
  have hone : one r.targetParent jf ≤ 1 := by
    rw [one_eq]
    exact_mod_cast Bool.toNat_le _
  have hdropped := h.dropParentLink hne hfp (by
    split <;> simp only [Pi.sub_apply, Pi.zero_apply] <;> omega)
  unfold VirtualFs.relink
  split
  · next hdir => simpa [hdir] using hdropped
  · next hdir =>
    rw [if_neg hdir, zero_sub] at hdropped
    rw [← tree_dropParentLink fs r.from_] at htp
    have hadded := hdropped.addLink (hdropped.kinds _ _ htp)
    rwa [VNode.inode_dir, neg_add_cancel] at hadded

omit h in
theorem not_prefix_of_rename (hwf : WellFormed fs.tree) {from_ : Path}
    (hfrom : fs.tree.get? from_ = some source) (hne : from_ ≠ to_)
    (htp : fs.tree.get? to_.dropLast = some (.dir j)) (hpre : ¬ (source.isDir ∧ from_ <+: to_)) :
    ¬ from_ <+: to_ := by
  rintro ⟨r, rfl⟩
  have hr : r ≠ [] := by
    rintro rfl
    exact hne (append_nil from_).symm
  rw [dropLast_append_of_ne_nil hr] at htp
  refine hpre ⟨?_, prefix_append from_ r⟩
  by_cases heq : from_ = from_ ++ r.dropLast
  · rw [← heq] at htp
    cases hfrom.symm.trans htp
    rfl
  · obtain ⟨i, hi⟩ := hwf.between hfrom (prefix_refl from_) htp
      (prefix_append from_ r.dropLast) heq
    cases hfrom.symm.trans hi
    rfl

/-- A tree from which a rename has taken what it replaces, ready for the move. -/
structure Cleared (fs cleared : VirtualFs) (r : Rename) : Prop where
  wellFormed : WellFormed cleared.tree
  source : cleared.tree.get? r.from_ = some r.source
  apart : ¬ r.from_ <+: r.to_
  free : ∀ q node, cleared.tree.get? q = some node → ¬ r.to_ <+: q
  same : ∀ q, q ≠ r.to_ → cleared.tree.get? q = fs.tree.get? q

omit h in
theorem cleared_of_renameChecks (hwf : WellFormed fs.tree) {fromRaw toRaw : Option (List Byte)}
    {r : Rename} (hchecks : fs.renameChecks host env fromRaw toRaw = .ok r) :
    Cleared fs (fs.removeTarget host r.to_ r.target) r := by
  obtain ⟨hfrom, hne, hparent, htarget, hpre, hrepl⟩ := renameChecks_eq_ok hchecks
  obtain ⟨-, htp⟩ := parent_eq_ok hparent
  rw [htarget] at hrepl
  have htree : (fs.removeTarget host r.to_ r.target).tree = fs.tree.erase r.to_ :=
    htarget ▸ tree_removeTarget fs host r.to_
  have hfree : ∀ q node, (fs.tree.erase r.to_).get? q = some node → ¬ r.to_ <+: q := by
    intro q node hq
    obtain ⟨hqt, hq⟩ := get?_of_erase hq
    exact not_below_target hwf htp hrepl hq hqt
  have hsame : ∀ q, q ≠ r.to_ → (fs.tree.erase r.to_).get? q = fs.tree.get? q :=
    fun q hq => (get?_erase fs.tree r.to_ q).trans (if_neg hq)
  rw [← htree] at hfree hsame
  refine ⟨?_, (hsame _ hne).trans hfrom, not_prefix_of_rename hwf hfrom hne htp hpre, hfree, hsame⟩
  intro p node q node' hp hq hqp hqne
  rw [htree] at hp hq
  obtain ⟨i, hi⟩ := hwf p node q node' (get?_of_erase hp).2 (get?_of_erase hq).2 hqp hqne
  refine ⟨i, (hsame _ fun heq => ?_).trans hi⟩
  exact hfree p node (htree ▸ hp) (heq ▸ dropLast_prefix p)

theorem Sound.rename (fromRaw toRaw : Option (List Byte)) :
    (fs.rename host env fromRaw toRaw).1.Sound 0 := by
  unfold VirtualFs.rename
  cases hchecks : fs.renameChecks host env fromRaw toRaw with
  | error reply => exact h
  | ok r =>
    obtain ⟨hfrom, hne, hparent, htarget, hpre, hrepl⟩ := renameChecks_eq_ok hchecks
    obtain ⟨htne, htp⟩ := parent_eq_ok hparent
    obtain ⟨hwf, hfrom', hnot, hfree, hsame⟩ :=
      cleared_of_renameChecks host env h.rooted.wellFormed hchecks
    have hroot : r.from_ ≠ [] := fun heq => hnot (heq ▸ nil_prefix)
    obtain ⟨jf, hfp⟩ := h.rooted _ _ hfrom hroot
    rw [htarget] at hrepl
    have hgone := h.removeTarget host htne htp hrepl
    rw [← htarget] at hgone hrepl
    -- neither parent is what the rename replaces
    have hfp_ne : r.from_.dropLast ≠ r.to_ :=
      fun heq => hfree _ _ hfrom' (heq ▸ dropLast_prefix r.from_)
    have hfp' := (hsame _ hfp_ne).trans hfp
    have htp' := (hsame _ (dropLast_ne htne)).trans htp
    have hmoved := hgone.moveTo hfrom' hnot hfree hfp' htne htp'
    have hget := get?_moveTo hwf hfrom' hfree
    show VirtualFs.Sound (if r.source.isDir then
      ((fs.removeTarget host r.to_ r.target).moveTo r.from_ r.to_ r.source.isDir).relink r
      else (fs.removeTarget host r.to_ r.target).moveTo r.from_ r.to_ r.source.isDir) 0
    cases hdir : r.source.isDir with
    | true =>
      rw [hdir] at hmoved hget
      have hfrom_stays : ¬ r.from_ <+: r.from_.dropLast := by
        intro hself
        exact dropLast_ne hroot (( dropLast_prefix r.from_).eq_of_length_le hself.length_le)
      have hto_stays : ¬ r.from_ <+: r.to_.dropLast :=
        fun hself => hnot (hself.trans ( dropLast_prefix r.to_))
      refine Sound.relink hmoved hroot ?_ ?_
      · exact (hget _ _).mpr ⟨_, rebase_outside hfrom_stays, hfp'⟩
      · exact (hget _ _).mpr ⟨_, rebase_outside hto_stays, htp'⟩
    | false =>
      have hfile : r.target.any (·.isDir) = false := by
        cases htgt : r.target with
        | none => rfl
        | some target =>
          rw [htgt] at hrepl
          exact (replaceable_eq_ok hrepl).1.symm.trans hdir
      rw [hdir, hfile] at hmoved
      exact hmoved

theorem Sound.call (c : Call) : (fs.call host env c).1.Sound 0 := by
  cases c with
  | open_ raw flags mode fd cleared => exact h.open_ host env raw flags mode fd cleared
  | mkdir raw mode => exact h.mkdir host env raw mode
  | rmdir raw => exact h.rmdir host env raw
  | unlink raw => exact h.unlink host env raw
  | symlink target link => exact h.symlink host env target link
  | link from_ to_ => exact h.link host env from_ to_
  | rename from_ to_ => exact h.rename host env from_ to_

end VirtualFs

end Snare.Fs
