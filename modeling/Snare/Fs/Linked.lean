import Snare.Fs.Links
import Snare.Lib.Update

/-!
# A file system's tree, from its builder on

The builder gives every path it declares an inode of its own, and `new` counts the directories in
each declared directory. A tree whose parents are all declared starts with the invariant, and every
call keeps it.

* **`FsBuilder.Declared`**: what every sequence of builder calls leaves;
* **`VirtualFs.tree_linked`**: every run of calls, succeeding or failing, from every such tree.
-/

namespace Snare.Fs

open SortedMap

/-! ## What a builder declares -/

/-- Every declared path has an inode of its own, new and of its node's kind. -/
structure FsBuilder.Declared (b : FsBuilder) : Prop where
  apart : ∀ p q node node', b.tree.get? p = some node → b.tree.get? q = some node' →
    node.inode = node'.inode → p = q
  made : ∀ p node, b.tree.get? p = some node → ∃ owner, b.inodes node.inode = .new node.kind owner
  fresh : ∀ p node, b.tree.get? p = some node → node.inode < b.nextInode

namespace FsBuilder.Declared

theorem empty : FsBuilder.Declared {} where
  apart _ _ _ _ hp := nomatch hp
  made _ _ hp := nomatch hp
  fresh _ _ hp := nomatch hp

variable {b : FsBuilder} (h : b.Declared) (host : Host)
include h

theorem declare (path : Path) (node : Nat → VNode) (hnode : ∀ i, (node i).inode = i) :
    (b.declare host path node).Declared := by
  have hget : ∀ q, (b.declare host path node).tree.get? q
      = if q = path then some (node b.number) else b.tree.get? q :=
    fun q => get?_insert b.tree path q _
  have hold : ∀ q node', b.tree.get? q = some node' → node'.inode < b.number :=
    fun q node' hq => Nat.lt_of_lt_of_le (h.fresh q node' hq) Nat.left_le_or
  refine ⟨fun p q node' node'' hp hq heq => ?_, fun p node' hp => ?_, fun p node' hp => ?_⟩
  · rw [hget] at hp hq
    split at hp <;> split at hq
    · next hp' hq' => rw [hp', hq']
    · cases hp
      have := hold q node'' hq
      rw [hnode] at heq
      omega
    · cases hq
      have := hold p node' hp
      rw [hnode] at heq
      omega
    · exact h.apart p q node' node'' hp hq heq
  · have hinode : (b.declare host path node).inodes node'.inode
        = if node'.inode = b.number then
            .new (node b.number).kind ⟨declaredMode host (node b.number).kind, 0, 0⟩
          else b.inodes node'.inode := Function.update_apply _ _ _ _
    rw [hget] at hp
    split at hp
    · cases hp
      rw [hinode, if_pos (hnode _)]
      exact ⟨_, rfl⟩
    · rw [hinode, if_neg (hold p node' hp).ne]
      exact h.made p node' hp
  · show node'.inode < b.number + 2
    rw [hget] at hp
    split at hp
    · cases hp
      rw [hnode]
      omega
    · have := hold p node' hp
      omega

theorem declareAbove (path : Path) : (b.declareAbove host path).Declared := by
  refine List.foldlRecOn _ _ h fun b' h' above _ => ?_
  split
  · exact h'
  · exact h'.declare host above .dir fun _ => rfl

theorem call (c : BuilderCall) : (b.call host c).Declared := by
  cases c with
  | file path => exact (h.declareAbove host _).declare host _ .file fun _ => rfl
  | dir path => exact h.declare host _ .dir fun _ => rfl
  | symlink path target =>
    exact (h.declareAbove host _).declare host _ (.symlink · target) fun _ => rfl
  | mode path mode => exact { h with }
  | owner path uid gid => exact { h with }
  | ownPrefix path => exact { h with }
  | passthrough glob => exact { h with }
  | deny glob => exact { h with }

theorem calls (cs : List BuilderCall) : (cs.foldl (FsBuilder.call host) b).Declared :=
  List.foldlRecOn _ _ h fun _ h' c _ => h'.call host c

end FsBuilder.Declared

/-! ## The tree it starts with -/

namespace VirtualFs

def fromParent (fs : VirtualFs) (i : Nat) (e : Path × VNode) : Bool :=
  e.2.isDir && fs.parentNode e.1 = some (.dir i)

theorem linkParent_eq (fs : VirtualFs) (e : Path × VNode) :
    (fs.linkParent e).tree = fs.tree ∧ (fs.linkParent e).nextInode = fs.nextInode
      ∧ ∀ i, ((fs.linkParent e).inodes i).kind = (fs.inodes i).kind
        ∧ ((fs.linkParent e).inodes i).links = (fs.inodes i).links + (fs.fromParent i e).toNat := by
  unfold linkParent fromParent
  split
  · next dir j hdir hparent =>
    refine ⟨rfl, rfl, fun i => ⟨kind_setLinks fs j _ i, ?_⟩⟩
    rw [addLink, links_setLinks, hdir, hparent]
    by_cases hij : i = j
    · subst hij
      simp
    · simp [hij, Ne.symm hij]
  · next hnot =>
    refine ⟨rfl, rfl, fun i => ⟨rfl, ?_⟩⟩
    have hfalse : (e.2.isDir && decide (fs.parentNode e.1 = some (.dir i))) = false := by
      rw [Bool.and_eq_false_iff, decide_eq_false_iff_not]
      by_cases hdir : e.2.isDir
      · exact .inr fun hparent => hnot _ i (VNode.isDir_iff.mp hdir) hparent
      · exact .inl (Bool.eq_false_iff.mpr hdir)
    rw [hfalse]
    rfl

/-- **All the links at once**: what `new`'s pass over the tree adds to each directory. -/
theorem foldl_linkParent (fs : VirtualFs) (es : List (Path × VNode)) :
    (es.foldl linkParent fs).tree = fs.tree ∧ (es.foldl linkParent fs).nextInode = fs.nextInode
      ∧ ∀ i, ((es.foldl linkParent fs).inodes i).kind = (fs.inodes i).kind
        ∧ ((es.foldl linkParent fs).inodes i).links
          = (fs.inodes i).links + es.countP (fs.fromParent i) := by
  induction es generalizing fs with
  | nil => exact ⟨rfl, rfl, fun i => ⟨rfl, rfl⟩⟩
  | cons e es ih =>
    obtain ⟨htree, hnext, hinodes⟩ := fs.linkParent_eq e
    obtain ⟨htree', hnext', hinodes'⟩ := ih (fs.linkParent e)
    -- a step changes no node, so later entries count as before
    have hsame : ∀ i, (fs.linkParent e).fromParent i = fs.fromParent i := by
      intro i
      funext e'
      rw [fromParent, fromParent, parentNode, parentNode, htree]
    refine ⟨htree'.trans htree, hnext'.trans hnext, fun i => ?_⟩
    obtain ⟨hkind, hlinks⟩ := hinodes i
    obtain ⟨hkind', hlinks'⟩ := hinodes' i
    refine ⟨hkind'.trans hkind, ?_⟩
    rw [List.foldl_cons, hlinks', hlinks, hsame, List.countP_cons]
    cases fs.fromParent i e with
    | false => simp
    | true =>
      simp only [Bool.toNat_true, if_true]
      omega

variable {b : FsBuilder}

theorem foldl_own (hdecl : b.Declared) (caller : Credentials) {p : Path}
    {node : VNode} (hp : b.tree.get? p = some node) :
    ∃ owner, b.tree.entries.foldl (b.own caller) (fun _ => {}) node.inode =
      .new node.kind owner := by
  have hmem := get?_eq_some_iff.mp hp
  have hinj : ∀ e ∈ b.tree.entries, e.2.inode = node.inode → e = (p, node) := by
    intro e he heq
    have hget := get?_eq_some_iff.mpr he
    have hpath := hdecl.apart e.1 p e.2 node hget hp heq
    rw [hpath, hp] at hget
    exact Prod.ext hpath (Option.some.inj hget).symm
  have hown := Update.foldl_update_of_mem (w := fun e : Path × VNode => e.2.inode)
    (g := fun e => { b.inodes e.2.inode with
      owner := b.ownerFor caller e.1 (b.inodes e.2.inode).owner }) hmem hinj fun _ => {}
  obtain ⟨owner, hmade⟩ := hdecl.made p node hp
  refine ⟨b.ownerFor caller p owner, hown.trans ?_⟩
  rw [hmade]
  rfl

theorem foldl_own_of_forall_ne (caller : Credentials) {i : Nat}
    (hi : ∀ p node, b.tree.get? p = some node → node.inode ≠ i) :
    b.tree.entries.foldl (b.own caller) (fun _ => {}) i = {} :=
  Update.foldl_update_of_forall_ne
    (fun e he => hi e.1 e.2 (get?_eq_some_iff.mpr he)) _

variable {fs : VirtualFs}

theorem countP_fromParent_eq_zero {i : Nat}
    (hi : ∀ p, fs.tree.get? p ≠ some (.dir i)) (es : List (Path × VNode)) :
    es.countP (fs.fromParent i) = 0 := by
  refine List.countP_eq_zero.mpr fun e _ hcounted => ?_
  obtain ⟨-, hparent⟩ := Bool.and_eq_true_iff.mp hcounted
  obtain ⟨q, -, hq⟩ := Option.bind_eq_some_iff.mp (of_decide_eq_true hparent)
  exact hi q hq

/-- **The links of a tree of new inodes**, once every declared directory's parent is counted. -/
theorem Sound.of_made (hrooted : Rooted fs.tree)
    (hapart : ∀ p q node node', fs.tree.get? p = some node → fs.tree.get? q = some node' →
      node.inode = node'.inode → p = q) (hmade : ∀ p node, fs.tree.get? p = some node →
      ∃ owner, fs.inodes node.inode = .new node.kind owner)
    (hgone : ∀ i, (∀ p node, fs.tree.get? p = some node → node.inode ≠ i) → fs.inodes i = {})
    (hfresh : ∀ p node, fs.tree.get? p = some node → node.inode < fs.nextInode) :
    (fs.tree.entries.foldl linkParent fs).Sound 0 := by
  obtain ⟨htree, hnext, hinodes⟩ := fs.foldl_linkParent fs.tree.entries
  have hkinds : ∀ p node, fs.tree.get? p = some node → (fs.inodes node.inode).kind = node.kind := by
    intro p node hp
    obtain ⟨owner, hmade⟩ := hmade p node hp
    rw [hmade]
    rfl
  refine ⟨?_, fun p node hp => ?_, fun p q i hp hq => ?_, fun p node hp => ?_, fun i hi => ?_,
    fun p i hp => ?_⟩
  · rwa [htree]
  · rw [htree] at hp
    exact (hinodes _).1.trans (hkinds p node hp)
  · rw [htree] at hp hq
    exact hapart p q _ _ hp hq rfl
  · rw [htree] at hp
    rw [hnext]
    exact hfresh p node hp
  · have hnames : (fs.tree.entries.foldl linkParent fs).namings i = fs.namings i := by
      rw [namings, namings, htree]
    rw [(hinodes i).1] at hi
    rw [(hinodes i).2, hnames, countP_fromParent_eq_zero fun q hq => hi (hkinds q _ hq)]
    by_cases hused : ∃ p node, fs.tree.get? p = some node ∧ node.inode = i
    · obtain ⟨p, node, hp, rfl⟩ := hused
      obtain ⟨owner, hmade⟩ := hmade p node hp
      have hkind : node.kind ≠ .directory := (hkinds p node hp).symm.trans_ne hi
      have hone : fs.namings node.inode = 1 := by
        have hcount := tally_erase hp fun _ node' => node'.inode = node.inode
        have hrest : (fs.tree.erase p).tally (fun _ node' => node'.inode = node.inode) = 0 := by
          refine tally_eq_zero fun q node' hq => decide_eq_false fun heq => ?_
          obtain ⟨hne, hq⟩ := get?_of_erase hq
          exact hne (hapart q p node' node hq hp heq)
        rw [hrest, decide_eq_true rfl] at hcount
        exact hcount.symm
      rw [hmade, hone, VInode.new, if_neg hkind]
    · have hunused : ∀ p node, fs.tree.get? p = some node → node.inode ≠ i :=
        fun p node hp heq => hused ⟨p, node, hp, heq⟩
      have hnone : fs.namings i = 0 :=
        tally_eq_zero fun p node hp => decide_eq_false (hunused p node hp)
      rw [hgone i hunused, hnone]
  · have hchild : (fs.tree.entries.foldl linkParent fs).childDirs p = fs.childDirs p := by
      rw [childDirs, childDirs, htree]
    rw [htree] at hp
    obtain ⟨owner, hmade⟩ := hmade p _ hp
    -- a directory's inode and its path are counted by the same entries
    have hcount : fs.tree.entries.countP (fs.fromParent i) = fs.childDirs p := by
      refine List.countP_congr fun e _ => ?_
      simp only [fromParent, Bool.and_eq_true, decide_eq_true_eq, and_comm (a := e.2.isDir = true)]
      refine and_congr_left fun _ => ⟨fun hparent => ?_, fun hparent => ?_⟩
      · obtain ⟨q, hq, hget⟩ := Option.bind_eq_some_iff.mp hparent
        rw [hq, hapart q p _ _ hget hp rfl]
      · rw [parentNode, hparent]
        exact hp
    rw [(hinodes i).2, hchild, hcount, ← VNode.inode_dir i, hmade]
    simp [VInode.new]

/-- **A file system starts with its links**, if every declared node is in a declared directory. -/
theorem Sound.of_new (hdecl : b.Declared) (hrooted : Rooted b.tree)
    {caller : Credentials} (hnew : VirtualFs.new b caller = some fs) : fs.Sound 0 := by
  unfold VirtualFs.new at hnew
  split at hnew
  swap
  · cases hnew
  cases hnew
  refine Sound.of_made hrooted hdecl.apart (fun p node hp => foldl_own hdecl caller hp)
    (fun i hi => foldl_own_of_forall_ne caller hi) fun p node hp => ?_
  exact Nat.lt_of_lt_of_le (hdecl.fresh p node hp) Nat.left_le_or

/-! ## Every run -/

/-- **The tree keeps its shape and its links** over every sequence of calls with arbitrary paths and
callers, from every tree that is built with the parent of every node declared. -/
theorem tree_linked (host : Host) (calls : List BuilderCall) (caller : Credentials) (fs : VirtualFs)
    (hnew : VirtualFs.new (calls.foldl (FsBuilder.call host) {}) caller = some fs)
    (hrooted : Rooted (calls.foldl (FsBuilder.call host) {}).tree) (cs : List (Env × Call)) :
    Runs.Always (VirtualFs.step host) Linked fs cs := by
  have hdecl : (calls.foldl (FsBuilder.call host) {}).Declared := .calls .empty host calls
  have hsound := Sound.of_new hdecl hrooted hnew
  have hstep : ∀ (fs : VirtualFs) (c : Env × Call), fs.Sound 0 → (fs.step host c).Sound 0 :=
    fun _ c h => h.call host c.1 c.2
  exact (Runs.always_of_step (I := fun fs => fs.Sound 0) hstep hsound cs).imp fun _ h => h.linked

instance (tree : SortedMap Path VNode) : Decidable (Rooted tree) :=
  decidable_of_iff (∀ e ∈ tree.entries, e.1 ≠ [] → (tree.get? e.1.dropLast).any (·.isDir)) <| by
    simp only [Option.any_eq_true, VNode.isDir_iff]
    constructor
    · intro h p node hp hne
      obtain ⟨above, habove, hdir⟩ := h (p, node) (get?_eq_some_iff.mp hp) hne
      exact ⟨above.inode, habove.trans (congrArg some hdir)⟩
    · intro h e he hne
      obtain ⟨i, hi⟩ := h e.1 e.2 (get?_eq_some_iff.mpr he) hne
      exact ⟨.dir i, hi, rfl⟩

def sampleCaller : Credentials := ⟨7, 8, [8], false, 0o022, List.mem_singleton_self 8⟩

/-- A tree with the file `/a/f` and the directory `/b`. -/
def sampleCalls : List BuilderCall := [.file [47, 97, 47, 102], .dir [47, 98]]

def sample : Option VirtualFs :=
  VirtualFs.new (sampleCalls.foldl (FsBuilder.call .linux) {}) sampleCaller

/-- `link("/a/f", "/a/g")`, then `rename("/a", "/b")` over the empty directory `/b`, then
`rmdir("/b")`, which fails. -/
def sampleRun : List (Env × Call) :=
  [.link (some [47, 97, 47, 102]) (some [47, 97, 47, 103]), .rename (some [47, 97]) (some [47, 98]),
    .rmdir (some [47, 98])].map fun c => (⟨sampleCaller, none, .ok [47]⟩, c)

theorem tree_linked_renamed :
    ∃ fs, sample = some fs ∧ Runs.Always (VirtualFs.step .linux) Linked fs sampleRun
      ∧ (sampleRun.foldl (VirtualFs.step .linux) fs).tree.entries
        = [([], .dir 3), ([[98]], .dir 1), ([[98], [102]], .file 5), ([[98], [103]], .file 5)] := by
  have hrun : sample.map (fun fs => (sampleRun.foldl (VirtualFs.step .linux) fs).tree.entries)
      = some [([], .dir 3), ([[98]], .dir 1), ([[98], [102]], .file 5),
        ([[98], [103]], .file 5)] := by
    decide +kernel
  obtain ⟨fs, hnew, hentries⟩ := Option.map_eq_some_iff.mp hrun
  refine ⟨fs, hnew, ?_, hentries⟩
  exact tree_linked .linux sampleCalls sampleCaller fs hnew (by decide +kernel) sampleRun

end VirtualFs

end Snare.Fs
