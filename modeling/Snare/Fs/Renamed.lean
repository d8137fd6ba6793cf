import Snare.Fs.Linked

/-!
# What a rename moves

The tree is a flat map of paths, so `rename` takes out what is at the target, then puts every path
at or below the source at a new key.

* **`get?_renamed`**: what the tree holds afterwards, in any tree in which nothing lies below a file
  or an undeclared directory;
* **`rename_moves_subtree`**: one subtree moves and nothing else changes.

The times of an inode are kept beside the tree here: no check reads them.
-/

namespace Snare.Fs

structure Times where
  accessed : Int
  modified : Int
  changed : Int
  born : Int

namespace Times

def modify (now : Int) (times : Times) : Times := { times with modified := now, changed := now }

def change (now : Int) (times : Times) : Times := { times with changed := now }

end Times

def touch (times : Nat → Times) (inode : Nat) (f : Times → Times) : Nat → Times :=
  Function.update times inode (f (times inode))

namespace VirtualFs

variable (fs : VirtualFs)

/-- The times a rename that goes through at `now` leaves. -/
def renameTimes (now : Int) (r : Rename) (times : Nat → Times) : Nat → Times :=
  let times :=
    match fs.parent r.from_ with
    | .ok parent => touch times parent (.modify now)
    | .error _ => times
  let times := touch times r.targetParent (.modify now)
  let times := touch times r.source.inode (.change now)
  match r.target with
  | some target => touch times target.inode (.change now)
  | none => times

/-- `rename` at `now`, with the times of every inode. -/
def renameAt (host : Host) (env : Env) (now : Int) (times : Nat → Times)
    (fromRaw toRaw : Option (List Byte)) : VirtualFs × (Nat → Times) × Reply :=
  let (fs', reply) := fs.rename host env fromRaw toRaw
  match fs.renameChecks host env fromRaw toRaw with
  | .error _ => (fs', times, reply)
  | .ok r => (fs', fs.renameTimes now r times, reply)

def named (host : Host) (env : Env) (raw : Option (List Byte)) : Checks Path := do
  let (raw, path) ← fs.spelled env raw
  orErr (fs.traversal host env.caller raw path true false)

variable {fs} {host : Host} {env : Env} {fromRaw toRaw : Option (List Byte)}

/-! ## What the checks of a rename say -/

theorem bind_eq_error {α β : Type} {x : Checks α} {f : α → Checks β} {reply : Reply} :
    x >>= f = .error reply ↔ x = .error reply ∨ ∃ a, x = .ok a ∧ f a = .error reply := by
  cases x <;> simp [bind, Except.bind]

theorem refuse_eq_error {c : Prop} [Decidable c] {reply reply' : Reply} :
    refuse c reply = .error reply' ↔ c ∧ reply = reply' := by
  unfold refuse
  split <;> simp_all

theorem named_eq_ok {raw : Option (List Byte)} {bytes : List Byte} {path path' : Path}
    (hrooted : fs.rooted env raw = .ok bytes) (hspell : spell bytes = .ok path)
    (htrav : orErr (fs.traversal host env.caller bytes path true false) = .ok path') :
    fs.named host env raw = .ok path' := by
  rw [named, spelled, hrooted, ← htrav]
  show (spell bytes >>= fun path => pure (bytes, path)) >>= _ = _
  rw [hspell]
  rfl

theorem named_of_renameChecks {r : Rename} (h : fs.renameChecks host env fromRaw toRaw = .ok r) :
    fs.named host env fromRaw = .ok r.from_ ∧ fs.named host env toRaw = .ok r.to_ ∧
      ¬ r.target.any fun target => target.inode = r.source.inode := by
  simp only [renameChecks, bind_eq_ok, refuse_eq_ok] at h
  obtain ⟨fromBytes, hfrom, toBytes, hto, from₁, hfrom₁, to₁, hto₁, -, -, -, -, -, -, -, -, from₂,
    hfrom₂, to₂, hto₂, -, -, h⟩ := h
  split at h
  · split at h <;> cases h
  simp only [bind_eq_ok, refuse_eq_ok, orErr_eq_ok] at h
  obtain ⟨-, -, -, -, -, -, parent, -, -, -, -, hinode, -, -, -, -, -, -, h⟩ := h
  cases h
  exact ⟨named_eq_ok hfrom hfrom₁ hfrom₂, named_eq_ok hto hto₁ hto₂, hinode⟩

/-! A check that fails does so with an error or passes the call on, but for the two that find one
inode. -/

theorem err_ne_ok (errno : Errno) (n : Nat) : err errno ≠ ok n := by simp [err, ok]

theorem none_ne_ok (n : Nat) : none ≠ ok n := by simp [ok]

theorem orErr_ne_ok {α : Type} (x : Except Errno α) (n : Nat) : orErr x ≠ .error (ok n) := by
  cases x <;> simp [orErr, err_ne_ok]

theorem rooted_ne_ok (raw : Option (List Byte)) (n : Nat) : fs.rooted env raw ≠ .error (ok n) := by
  intro h
  rcases bind_eq_error.mp h with h | ⟨bytes, -, h⟩
  · exact orErr_ne_ok _ n h
  · cases bytes <;> cases h

theorem spell_ne_ok (raw : List Byte) (n : Nat) : spell raw ≠ .error (ok n) := by
  unfold spell
  split <;> simp [none_ne_ok]

theorem slashedRename_ne_ok (raw : List Byte) (source : VNode) (target : Option VNode) (n : Nat) :
    slashedRename host raw source target ≠ .error (ok n) := by
  unfold slashedRename
  split
  · split <;> simp [refuse_eq_error, err_ne_ok]
  · simp

theorem replaceable_ne_ok (to_ : Path) (source : VNode) (target : Option VNode) (n : Nat) :
    fs.replaceable to_ source target ≠ .error (ok n) := by
  cases target <;> simp [replaceable, bind_eq_error, refuse_eq_error, err_ne_ok]

theorem same_of_renameChecks (h : fs.renameChecks host env fromRaw toRaw = .error (ok 0)) :
    ∃ from_ to_ source, fs.named host env fromRaw = .ok from_ ∧ fs.named host env toRaw = .ok to_ ∧
      fs.tree.get? from_ = some source ∧
      (fs.tree.get? to_).any fun target => target.inode = source.inode := by
  simp only [renameChecks, bind_eq_error, refuse_eq_error, rooted_ne_ok, spell_ne_ok, orErr_ne_ok,
    err_ne_ok, none_ne_ok, and_false, false_or] at h
  obtain ⟨fromBytes, hfrom, toBytes, hto, from₁, hfrom₁, to₁, hto₁, -, -, -, -, -, -, -, -, from₂,
    hfrom₂, to₂, hto₂, -, -, h⟩ := h
  refine ⟨from₂, to₂, ?_⟩
  cases hsource : fs.tree.get? from₂ with
  | none =>
    rw [hsource] at h
    cases hparent : fs.parent from₂ <;> simp [hparent, err_ne_ok] at h
  | some source =>
    refine ⟨source, named_eq_ok hfrom hfrom₁ hfrom₂, named_eq_ok hto hto₁ hto₂, rfl, ?_⟩
    rw [hsource] at h
    simp only [bind_eq_error, refuse_eq_error, orErr_ne_ok, err_ne_ok, slashedRename_ne_ok,
      replaceable_ne_ok, and_false, false_or] at h
    obtain ⟨-, -, h⟩ := h
    rcases h with ⟨rfl, -⟩ | ⟨-, -, -, -, parent, -, -, -, h⟩
    · simp [hsource]
    · rcases h with ⟨hinode, -⟩ | ⟨-, -, -, -, -, -, -, -, h⟩
      · exact hinode
      · cases h

/-! ## What the tree holds -/

/-- One subtree moved: what is at and below `to_` is what was at and below `from_`, nothing is left
there, and every other path holds what it did. -/
structure Moves (tree : SortedMap Path VNode) (from_ to_ : Path) (tree' : SortedMap Path VNode) :
    Prop where
  moved : ∀ r, tree'.get? (to_ ++ r) = tree.get? (from_ ++ r)
  gone : ∀ p, from_ <+: p → tree'.get? p = none
  same : ∀ p, ¬ from_ <+: p → ¬ to_ <+: p → tree'.get? p = tree.get? p

theorem tree_relink (fs : VirtualFs) (r : Rename) : (fs.relink r).tree = fs.tree := by
  unfold relink
  split
  · exact tree_dropParentLink fs r.from_
  · exact tree_dropParentLink fs r.from_

theorem tree_rename {r : Rename} (h : fs.renameChecks host env fromRaw toRaw = .ok r) :
    (fs.rename host env fromRaw toRaw).1.tree =
      ((fs.removeTarget host r.to_ r.target).moveTo r.from_ r.to_ r.source.isDir).tree := by
  rw [rename, h]
  show (ite _ _ _ : VirtualFs).tree = _
  split
  · exact tree_relink _ r
  · rfl

/-- What the tree holds after a rename: every other path but the one it replaces, moved. -/
theorem get?_renamed (hwf : WellFormed fs.tree) {r : Rename}
    (h : fs.renameChecks host env fromRaw toRaw = .ok r) (q : Path) (node : VNode) :
    (fs.rename host env fromRaw toRaw).1.tree.get? q = some node ↔
      ∃ q', rebase r.from_ r.to_ q' = q ∧ q' ≠ r.to_ ∧ fs.tree.get? q' = some node := by
  obtain ⟨hwf', hfrom, -, hfree, hsame⟩ := cleared_of_renameChecks host env hwf h
  rw [tree_rename h, get?_moveTo hwf' hfrom hfree]
  constructor
  · rintro ⟨q', hq', hget⟩
    have hne : q' ≠ r.to_ := fun heq => hfree q' node hget (heq ▸ List.prefix_refl _)
    exact ⟨q', hq', hne, (hsame q' hne).symm.trans hget⟩
  · rintro ⟨q', hq', hne, hget⟩
    exact ⟨q', hq', (hsame q' hne).trans hget⟩

theorem moves_of_renameChecks (hwf : WellFormed fs.tree) {r : Rename}
    (h : fs.renameChecks host env fromRaw toRaw = .ok r) :
    Moves fs.tree r.from_ r.to_ (fs.rename host env fromRaw toRaw).1.tree := by
  obtain ⟨-, hfrom, hapart, hfree, hsame⟩ := cleared_of_renameChecks host env hwf h
  have hget := get?_renamed hwf h
  have hfree' {q node} (hne : q ≠ r.to_) (hq : fs.tree.get? q = some node) : ¬ r.to_ <+: q :=
    hfree q node ((hsame q hne).trans hq)
  refine ⟨fun rest => Option.ext fun node => ?_, fun p hp => ?_,
    fun p hp hp' => Option.ext fun node => ?_⟩
  · refine (hget _ node).trans ⟨?_, fun hold => ⟨r.from_ ++ rest, rebase_append rest, ?_, hold⟩⟩
    · rintro ⟨q, hq, hne, hold⟩
      by_cases hpre : r.from_ <+: q
      · obtain ⟨rest', rfl⟩ := hpre
        rw [rebase_append] at hq
        rwa [List.append_cancel_left hq] at hold
      · rw [rebase_outside hpre] at hq
        exact absurd ⟨rest, hq.symm⟩ (hfree' hne hold)
    · exact fun heq => hapart ⟨rest, heq⟩
  · refine Option.eq_none_iff_forall_ne_some.mpr fun node hnode => ?_
    obtain ⟨q, rfl, -, -⟩ := (hget p node).mp hnode
    by_cases hpre : r.from_ <+: q
    · obtain ⟨rest, rfl⟩ := hpre
      rw [rebase_append] at hp
      rcases List.prefix_or_prefix_of_prefix hp (List.prefix_append r.to_ rest) with hto | hto
      · exact hapart hto
      · exact hfree _ _ hfrom hto
    · rw [rebase_outside hpre] at hp
      exact hpre hp
  · refine (hget p node).trans ⟨?_, fun hold => ⟨p, rebase_outside hp, ?_, hold⟩⟩
    · rintro ⟨q, rfl, -, hold⟩
      by_cases hpre : r.from_ <+: q
      · obtain ⟨rest, rfl⟩ := hpre
        rw [rebase_append] at hp'
        exact absurd (List.prefix_append r.to_ rest) hp'
      · rwa [rebase_outside hpre]
    · exact fun heq => hp' (heq ▸ List.prefix_refl p)

theorem rename_of_renameAt (now : Int) (times : Nat → Times) :
    ((fs.renameAt host env now times fromRaw toRaw).1,
      (fs.renameAt host env now times fromRaw toRaw).2.2) = fs.rename host env fromRaw toRaw := by
  unfold renameAt
  split
  next hrename => split <;> exact hrename.symm

/-- **A rename moves exactly one subtree**: if it succeeds between two inodes, what was at and below
the one path is at and below the other and nothing else changes. If it fails, is passed on, or is
between two links of one inode, the tree, every inode and all times stay. -/
theorem rename_moves_subtree (fs : VirtualFs) (hwf : WellFormed fs.tree) (host : Host) (env : Env)
    (now : Int) (times : Nat → Times) (fromRaw toRaw : Option (List Byte)) :
    let (fs', times', reply) := fs.renameAt host env now times fromRaw toRaw
    (reply ≠ ok 0 → fs' = fs ∧ times' = times) ∧
      (reply = ok 0 → ∃ from_ to_ source, fs.named host env fromRaw = .ok from_ ∧
        fs.named host env toRaw = .ok to_ ∧ fs.tree.get? from_ = some source ∧
        if (fs.tree.get? to_).any fun target => target.inode = source.inode then
          fs' = fs ∧ times' = times
        else Moves fs.tree from_ to_ fs'.tree) := by
  cases hchecks : fs.renameChecks host env fromRaw toRaw with
  | error reply =>
    have hat : fs.renameAt host env now times fromRaw toRaw = (fs, times, reply) := by
      rw [renameAt, rename, hchecks]
    rw [hat]
    refine ⟨fun _ => ⟨rfl, rfl⟩, ?_⟩
    rintro rfl
    obtain ⟨from_, to_, source, hfrom, hto, hsource, hinode⟩ := same_of_renameChecks hchecks
    refine ⟨from_, to_, source, hfrom, hto, hsource, ?_⟩
    rw [if_pos hinode]
    exact ⟨rfl, rfl⟩
  | ok r =>
    have hreply : (fs.rename host env fromRaw toRaw).2 = ok 0 := by rw [rename, hchecks]
    have hat : fs.renameAt host env now times fromRaw toRaw =
        ((fs.rename host env fromRaw toRaw).1, fs.renameTimes now r times, ok 0) := by
      rw [renameAt, hchecks, ← hreply]
    rw [hat]
    refine ⟨fun hne => absurd rfl hne, fun _ => ?_⟩
    obtain ⟨hfrom, hto, hinode⟩ := named_of_renameChecks hchecks
    obtain ⟨hsource, -, -, htarget, -, -⟩ := renameChecks_eq_ok hchecks
    refine ⟨r.from_, r.to_, r.source, hfrom, hto, hsource, ?_⟩
    rw [← htarget, if_neg hinode]
    exact moves_of_renameChecks hwf hchecks

/-- In the sample tree `rename("/a", "/b")` replaces the empty directory `/b`: `/b/f` is then the
file that was `/a/f`, and nothing is left there. -/
theorem rename_moves_sample : ∃ fs, sample = some fs ∧ WellFormed fs.tree ∧
      let fs' := (fs.renameAt .linux ⟨sampleCaller, none, .ok [47]⟩ 5 (fun _ => ⟨0, 0, 0, 0⟩)
        (some [47, 97]) (some [47, 98])).1
      fs'.tree.get? [[98], [102]] = fs.tree.get? [[97], [102]] ∧
        fs'.tree.get? [[97], [102]] = none := by
  have hrun : sample.any fun fs =>
      let env : Env := ⟨sampleCaller, none, .ok [47]⟩
      Rooted fs.tree ∧ fs.named .linux env (some [47, 97]) = .ok [[97]] ∧
        fs.named .linux env (some [47, 98]) = .ok [[98]] ∧ fs.tree.get? [[97]] = some (.dir 1) ∧
        fs.tree.get? [[98]] = some (.dir 7) ∧
        (fs.rename .linux env (some [47, 97]) (some [47, 98])).2 = ok 0 := by
    decide +kernel
  obtain ⟨fs, hnew, hfacts⟩ := Option.any_eq_true .. |>.mp hrun
  obtain ⟨hrooted, hfrom, hto, hsource, htarget, hreply⟩ := of_decide_eq_true hfacts
  refine ⟨fs, hnew, hrooted.wellFormed, ?_⟩
  obtain ⟨-, hmoves⟩ := rename_moves_subtree fs hrooted.wellFormed .linux
    ⟨sampleCaller, none, .ok [47]⟩ 5 (fun _ => ⟨0, 0, 0, 0⟩) (some [47, 97]) (some [47, 98])
  obtain ⟨from_, to_, source, hfrom', hto', hsource', hmoves⟩ :=
    hmoves ((congrArg Prod.snd (rename_of_renameAt 5 _)).trans hreply)
  cases hfrom.symm.trans hfrom'
  cases hto.symm.trans hto'
  cases hsource.symm.trans hsource'
  rw [htarget, if_neg (by decide)] at hmoves
  exact ⟨hmoves.moved [[102]], hmoves.gone _ (by decide)⟩

end VirtualFs

end Snare.Fs
