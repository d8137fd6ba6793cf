import Snare.Lib.SortedMap

/-!
# Descriptors and the descriptions they share

`OpenFiles` maps descriptors to open descriptions, each with the count of its descriptors. The
backend keeps two: the open files and the directory streams, both under one descriptor after
`fdopendir`.

* **`OpenFiles.Sound`**: a description's count is the number of descriptors that name it, so it is
  there exactly while one does.
* **`OpenFiles.Becomes`**: what an operation makes of a table: its names, and the values of the
  descriptions that are still named.
* **`calls_exact`**: every call, but `dup2` of a descriptor with a directory stream onto itself.
-/

namespace Snare

open Function

/-- `OpenFiles<T>`: a descriptor's description, and a description's count and value. -/
structure OpenFiles (T : Type) where
  handles : SortedMap Int Nat := .empty
  descriptions : SortedMap Nat (Nat × T) := .empty
  next : Nat := 0

namespace OpenFiles

variable {T : Type} {o o' : OpenFiles T}

def containsKey (o : OpenFiles T) (fd : Int) : Bool := (o.handles.get? fd).isSome

def get (o : OpenFiles T) (fd : Int) : Option T := do
  let id ← o.handles.get? fd
  (o.descriptions.get? id).map Prod.snd

def getMut (o : OpenFiles T) (fd : Int) (f : T → T) : OpenFiles T :=
  match o.handles.get? fd with
  | none => o
  | some id => { o with descriptions := o.descriptions.modify id fun d => (d.1, f d.2) }

/-- `none` is a panic: the `unwrap`, or the subtraction from a count of 0. -/
def remove (o : OpenFiles T) (fd : Int) : Option (OpenFiles T × Option (Option T)) :=
  match o.handles.get? fd with
  | none => some (o, none)
  | some id => do
    let (refs, value) ← o.descriptions.get? id
    guard (0 < refs)
    let handles := o.handles.erase fd
    if refs - 1 = 0 then
      some ({ o with handles, descriptions := o.descriptions.erase id }, some (some value))
    else
      some ({ o with handles, descriptions := o.descriptions.insert id (refs - 1, value) },
        some none)

def insert (o : OpenFiles T) (fd : Int) (value : T) : Option (OpenFiles T) := do
  let (o, _) ← o.remove fd
  some
    { handles := o.handles.insert fd o.next
      descriptions := o.descriptions.insert o.next (1, value)
      next := o.next + 1 }

def alias_ (o : OpenFiles T) (oldfd newfd : Int) : Option (OpenFiles T × Option (Option T)) :=
  match o.handles.get? oldfd with
  | none => some (o, none)
  | some id =>
    if oldfd = newfd then some (o, some none)
    else do
      let (o, released) ← o.remove newfd
      let (refs, value) ← o.descriptions.get? id
      some ({ o with
        handles := o.handles.insert newfd id
        descriptions := o.descriptions.insert id (refs + 1, value) }, some released.join)

/-! ## Counts -/

def names (o : OpenFiles T) (fd : Int) : Option Nat := o.handles.get? fd

def value (o : OpenFiles T) (id : Nat) : Option T := (o.descriptions.get? id).map Prod.snd

def refs (o : OpenFiles T) (id : Nat) : Nat := (o.descriptions.get? id).elim 0 Prod.fst

def aliases (o : OpenFiles T) (id : Nat) : Nat := o.handles.count (· == id)

/-- Every count is right, and a description that is there has descriptors and an old number. -/
structure Sound (o : OpenFiles T) : Prop where
  counted : ∀ id, o.refs id = o.aliases id
  held : ∀ {id d}, o.descriptions.get? id = some d → 0 < d.1 ∧ id < o.next

theorem sound_empty : (({} : OpenFiles T)).Sound := ⟨fun _ => rfl, nofun⟩

theorem Sound.value_eq_none_iff (h : o.Sound) {id : Nat} :
    o.value id = none ↔ ∀ fd, o.names fd ≠ some id := by
  have hcount := h.counted id
  unfold refs at hcount
  unfold value
  cases hd : o.descriptions.get? id with
  | none =>
    rw [hd] at hcount
    have hzero := SortedMap.count_eq_zero.mp hcount.symm
    exact iff_of_true rfl fun fd hfd => by simpa using hzero fd id hfd
  | some d =>
    rw [hd] at hcount
    refine iff_of_false (by simp) fun hno => (h.held hd).1.ne' (hcount.trans ?_)
    refine SortedMap.count_eq_zero.mpr fun fd id' hfd => ?_
    simpa using fun heq : id' = id => hno fd (heq ▸ hfd)

theorem Sound.exists_description (h : o.Sound) {fd : Int} {id : Nat} (hfd : o.names fd = some id) :
    ∃ d, o.descriptions.get? id = some d ∧ d.1 = o.aliases id ∧ 0 < d.1 := by
  cases hd : o.descriptions.get? id with
  | none => exact absurd hfd (h.value_eq_none_iff.mp (by rw [value, hd]; rfl) fd)
  | some d =>
    have hcount := h.counted id
    rw [refs, hd] at hcount
    exact ⟨d, rfl, hcount, (h.held hd).1⟩

/-- The table after an operation: what its descriptors name, and what it wrote to descriptions. By
`Sound`, one whose last descriptor is gone is gone, and its number is not given again. -/
structure Becomes (o : OpenFiles T) (names' : Int → Option Nat) (write : Nat → T → T)
    (o' : OpenFiles T) : Prop where
  sound : o'.Sound
  next_le : o.next ≤ o'.next
  names_eq : o'.names = names'
  value_eq : ∀ id < o.next, ∀ fd, o'.names fd = some id → o'.value id = (o.value id).map (write id)

theorem becomes_alter (h : o.Sound) {handles : SortedMap Int Nat} {id next : Nat}
    {entry : Option (Nat × T)} {write : Nat → T → T}
    (hcount : ∀ id', handles.count (· == id') =
      if id' = id then entry.elim 0 Prod.fst else o.aliases id')
    (hentry : ∀ d, entry = some d → 0 < d.1 ∧ id < next ∧
      (id < o.next → (o.value id).map (write id) = some d.2))
    (hwrite : ∀ id', id' ≠ id → ∀ v, write id' v = v) (hnext : o.next ≤ next) :
    Becomes o handles.get? write
      { handles, descriptions := o.descriptions.alter id fun _ => entry, next } := by
  have hget := fun id' => o.descriptions.get?_alter id id' fun _ => entry
  have hsound : Sound
      { handles, descriptions := o.descriptions.alter id fun _ => entry, next } := by
    refine ⟨fun id' => ?_, fun {id' d} hd => ?_⟩
    · rw [refs, aliases, hcount, hget]
      split
      · rfl
      · exact h.counted id'
    · rw [hget] at hd
      split at hd
      · next heq =>
        obtain ⟨hpos, hlt, -⟩ := hentry d hd
        exact ⟨hpos, heq ▸ hlt⟩
      · exact ⟨(h.held hd).1, (h.held hd).2.trans_le hnext⟩
  refine ⟨hsound, hnext, rfl, fun id' hlt fd hfd => ?_⟩
  have hsome : value _ id' ≠ none := fun hnone => hsound.value_eq_none_iff.mp hnone fd hfd
  rw [value, hget] at hsome ⊢
  split at hsome
  · next heq =>
    subst heq
    rw [if_pos rfl]
    obtain ⟨d, hd⟩ := Option.ne_none_iff_exists'.mp (mt Option.map_eq_none_iff.mpr hsome)
    rw [hd, (hentry d hd).2.2 hlt]
    rfl
  · next hne =>
    rw [if_neg hne, funext (hwrite id' hne), Option.map_id']
    rfl

theorem Becomes.trans {n₁ n₂ : Int → Option Nat} {o₁ o₂ : OpenFiles T}
    (h₁ : Becomes o n₁ (fun _ v => v) o₁) (h₂ : Becomes o₁ n₂ (fun _ v => v) o₂) :
    Becomes o n₂ (fun _ v => v) o₂ := by
  refine ⟨h₂.sound, h₁.next_le.trans h₂.next_le, h₂.names_eq, fun id hlt fd hfd => ?_⟩
  have heq := h₂.value_eq id (hlt.trans_le h₁.next_le) fd hfd
  rw [Option.map_id'] at heq
  -- a description of the last table was in the one between, under some descriptor
  have hnamed : ¬∀ fd, o₁.names fd ≠ some id := fun hno =>
    h₂.sound.value_eq_none_iff.mp (heq.trans (h₁.sound.value_eq_none_iff.mpr hno)) fd hfd
  obtain ⟨fd', hfd'⟩ := not_forall.mp hnamed
  rw [heq, h₁.value_eq id hlt fd' (not_not.mp hfd')]

theorem Sound.becomes_self (h : o.Sound) : Becomes o o.names (fun _ v => v) o :=
  ⟨h, le_rfl, rfl, fun _ _ _ _ => Option.map_id'.symm⟩

theorem count_insert_of_none {m : SortedMap Int Nat} {fd : Int}
    (h : m.get? fd = none) (id id' : Nat) :
    (m.insert fd id).count (· == id') = m.count (· == id') + (id == id').toNat := by
  have hcount := m.count_alter fd (fun _ => some id) (· == id')
  rw [h] at hcount
  refine hcount.trans ?_
  cases hid : id == id' <;> simp [hid]

theorem Sound.remove_spec (h : o.Sound) (fd : Int) :
    ∃ o' r, o.remove fd = some (o', r) ∧ o'.next = o.next ∧
      Becomes o (update o.names fd none) (fun _ v => v) o' := by
  cases hfd : o.names fd with
  | none =>
    refine ⟨o, none, by rw [remove, ← names, hfd], rfl, ?_⟩
    rw [update_eq_self_iff.mpr hfd.symm]
    exact h.becomes_self
  | some id =>
    obtain ⟨⟨refs, value⟩, hd, hrefs, hpos⟩ := h.exists_description hfd
    refine ⟨⟨o.handles.erase fd,
      o.descriptions.alter id fun _ => if refs - 1 = 0 then none else some (refs - 1, value),
        o.next⟩,
      some (if refs - 1 = 0 then some value else none), ?_, rfl, ?_⟩
    · rw [remove, ← names, hfd]
      dsimp only
      rw [hd]
      show ((guard (0 < refs) : Option Unit) >>= _) = _
      rw [guard, if_pos hpos]
      by_cases hlast : refs - 1 = 0
      · simp only [if_pos hlast]
        rfl
      · simp only [if_neg hlast]
        rfl
    · have hnames : (o.handles.erase fd).get? = update o.names fd none :=
        funext fun fd' => by rw [SortedMap.get?_erase, update_apply]; rfl
      rw [← hnames]
      refine becomes_alter h (fun id' => ?_) (fun d hentry => ?_) (fun _ _ _ => rfl) le_rfl
      · have hcount := SortedMap.count_erase_of_some hfd (· == id')
        split
        · next heq =>
          rw [heq, beq_self_eq_true, Bool.toNat_true] at hcount
          rw [heq]
          change refs = o.handles.count (· == id) at hrefs
          split <;> simp only [Option.elim_none, Option.elim_some] <;> omega
        · next hne => rwa [beq_false_of_ne (Ne.symm hne)] at hcount
      · split at hentry
        · cases hentry
        · cases hentry
          refine ⟨by dsimp only; omega, (h.held hd).2, fun _ => ?_⟩
          rw [Option.map_id', OpenFiles.value, hd]
          rfl

theorem Becomes.take {fd : Int} {o₁ : OpenFiles T} {id next : Nat} {value : T}
    (h : Becomes o (update o.names fd none) (fun _ v => v) o₁) (hid : id < next)
    (hnext : o₁.next ≤ next) (hvalue : id < o₁.next → o₁.value id = some value) :
    Becomes o (update o.names fd (some id)) (fun _ v => v)
      ⟨o₁.handles.insert fd id, o₁.descriptions.insert id (o₁.aliases id + 1, value), next⟩ := by
  have hfd : o₁.handles.get? fd = none := by
    rw [← names, h.names_eq, update_self]
  have hnames : (o₁.handles.insert fd id).get? = update o.names fd (some id) := by
    rw [← @Function.update_idem _ _ _ fd none, ← h.names_eq]
    exact funext fun fd' => by rw [SortedMap.get?_insert, update_apply]; rfl
  rw [← hnames]
  refine h.trans (becomes_alter h.sound (fun id' => ?_) (fun d hentry => ?_)
    (fun _ _ _ => rfl) hnext)
  · rw [count_insert_of_none hfd]
    split
    · next heq => rw [heq, beq_self_eq_true]; rfl
    · next hne => rw [beq_false_of_ne (Ne.symm hne)]; rfl
  · cases hentry
    exact ⟨Nat.succ_pos _, hid, fun hlt => by rw [Option.map_id', hvalue hlt]⟩

theorem Sound.insert_spec (h : o.Sound) (fd : Int) (value : T) : ∃ o', o.insert fd value = some o' ∧
      Becomes o (update o.names fd (some o.next)) (fun _ v => v) o' := by
  obtain ⟨o₁, r, hremove, hnext, hbecomes⟩ := h.remove_spec fd
  refine ⟨_, by rw [insert, hremove]; rfl, ?_⟩
  have hnew : o₁.aliases o₁.next = 0 := by
    rw [← hbecomes.sound.counted, refs]
    cases hd : o₁.descriptions.get? o₁.next with
    | none => rfl
    | some d => exact absurd (hbecomes.sound.held hd).2 (lt_irrefl _)
  rw [← hnext]
  have htake := @Becomes.take _ _ fd _ _ _ value hbecomes (Nat.lt_succ_self _) (Nat.le_succ _)
    fun hlt => absurd hlt (lt_irrefl _)
  rwa [hnew] at htake

theorem Sound.alias_spec (h : o.Sound) (oldfd newfd : Int) :
    ∃ o' r, o.alias_ oldfd newfd = some (o', r) ∧
      Becomes o (if o.containsKey oldfd then update o.names newfd (o.names oldfd) else o.names)
        (fun _ v => v) o' := by
  cases hold : o.names oldfd with
  | none =>
    refine ⟨o, none, by rw [alias_, ← names, hold], ?_⟩
    rw [containsKey, ← names, hold]
    exact h.becomes_self
  | some id =>
    rw [containsKey, ← names, hold, Option.isSome_some, if_pos rfl]
    by_cases hsame : oldfd = newfd
    · refine ⟨o, some none, by rw [alias_, ← names, hold]; exact if_pos hsame, ?_⟩
      rw [update_eq_self_iff.mpr (hsame ▸ hold).symm]
      exact h.becomes_self
    · obtain ⟨o₁, r, hremove, -, hbecomes⟩ := h.remove_spec newfd
      have hold₁ : o₁.names oldfd = some id := by
        rw [hbecomes.names_eq, update_of_ne hsame, hold]
      obtain ⟨⟨refs, value⟩, hd, hrefs, hpos⟩ := hbecomes.sound.exists_description hold₁
      refine ⟨⟨o₁.handles.insert newfd id, o₁.descriptions.insert id (refs + 1, value), o₁.next⟩,
        some r.join, ?_, ?_⟩
      · rw [alias_, ← names, hold]
        dsimp only
        rw [if_neg hsame, hremove]
        show ((o₁.descriptions.get? id : Option (Nat × T)) >>= _) = _
        rw [hd]
        rfl
      · obtain rfl : refs = o₁.aliases id := hrefs
        refine hbecomes.take (hbecomes.sound.held hd).2 le_rfl fun _ => ?_
        rw [OpenFiles.value, hd]
        rfl

/-- What a change through a descriptor writes: its description alone. -/
def writes (o : OpenFiles T) (fd : Int) (f : T → T) (id : Nat) : T → T :=
  if o.names fd = some id then f else fun v => v

theorem Sound.getMut_spec (h : o.Sound) (fd : Int) (f : T → T) :
    Becomes o o.names (o.writes fd f) (o.getMut fd f) := by
  unfold getMut writes
  cases hfd : o.names fd with
  | none =>
    rw [← names, hfd]
    simpa using h.becomes_self
  | some id =>
    obtain ⟨⟨refs, value⟩, hd, hrefs, hpos⟩ := h.exists_description hfd
    rw [← names, hfd]
    dsimp only
    have hmodify : o.descriptions.modify id (fun d => (d.1, f d.2)) =
        o.descriptions.alter id fun _ => some (refs, f value) := by
      rw [SortedMap.modify]
      refine SortedMap.ext_get? fun id' => ?_
      rw [SortedMap.get?_alter, SortedMap.get?_alter, hd]
      rfl
    rw [hmodify]
    refine becomes_alter h (fun id' => ?_) (fun d hentry => ?_) (fun id' hne v => ?_) le_rfl
    · split
      · next heq => rw [heq]; exact hrefs.symm
      · rfl
    · cases hentry
      refine ⟨hpos, (h.held hd).2, fun _ => ?_⟩
      rw [if_pos rfl, OpenFiles.value, hd]
      rfl
    · rw [if_neg (fun heq => hne (Option.some.inj heq).symm)]

end OpenFiles

/-! ## The backend's two tables -/

/-- The open files, of type `F`, and the directory streams, of type `S`. -/
structure Descriptors (F S : Type) where
  files : OpenFiles F := {}
  dirs : OpenFiles S := {}

/-- The calls that change the tables: `open`; `fdopendir` on a directory; `close`, and a descriptor
replaced from outside; `dup` and `dup2`, with whether the system's call succeeded; and a change of
the open file. -/
inductive DescriptorCall (F S : Type) where
  | open_ (fd : Int) (file : F)
  | fdopendir (fd : Int) (stream : Option S)
  | fdReplaced (fd : Int)
  | dup (oldfd newfd : Int)
  | dupTo (oldfd newfd : Int) (result : Bool)
  | update (fd : Int) (f : F → F)

namespace Descriptors

variable {F S : Type}

def owns (t : Descriptors F S) (fd : Int) : Bool := t.files.containsKey fd || t.dirs.containsKey fd

def fdopendir (t : Descriptors F S) (fd : Int) (stream : Option S) : Option (Descriptors F S) :=
  match t.files.get fd *> stream with
  | none => some t
  | some stream => do
    let dirs ← t.dirs.insert fd stream
    some { t with dirs }

def fdReplaced (t : Descriptors F S) (fd : Int) : Option (Descriptors F S) := do
  let (files, _) ← t.files.remove fd
  let (dirs, _) ← t.dirs.remove fd
  some { files, dirs }

/-- What `dup` and `dup_to` do to the tables. -/
def aliased (t : Descriptors F S) (oldfd newfd : Int) : Option (Descriptors F S) :=
  if t.files.containsKey oldfd then do
    let (dirs, _) ← t.dirs.remove newfd
    let (files, _) ← t.files.alias_ oldfd newfd
    some { files, dirs }
  else do
    let (files, _) ← t.files.remove newfd
    let (dirs, _) ← t.dirs.alias_ oldfd newfd
    some { files, dirs }

def dup (t : Descriptors F S) (oldfd newfd : Int) : Option (Descriptors F S) :=
  if t.owns oldfd then t.aliased oldfd newfd else some t

def dupTo (t : Descriptors F S) (oldfd newfd : Int) (result : Bool) : Option (Descriptors F S) :=
  if !t.owns oldfd then some t else if !result then some t else t.aliased oldfd newfd

def step (t : Descriptors F S) : DescriptorCall F S → Option (Descriptors F S)
  | .open_ fd file => do
    let files ← t.files.insert fd file
    some { t with files }
  | .fdopendir fd stream => t.fdopendir fd stream
  | .fdReplaced fd => t.fdReplaced fd
  | .dup oldfd newfd => t.dup oldfd newfd
  | .dupTo oldfd newfd result => t.dupTo oldfd newfd result
  | .update fd f => some { t with files := t.files.getMut fd f }

def run (t : Descriptors F S) (calls : List (DescriptorCall F S)) : Option (Descriptors F S) :=
  calls.foldlM step t

/-! ## What a call should do to the names -/

/-- `newfd` is made to name what `oldfd` does, and nothing else; onto itself nothing is done. -/
def aliasedNames (t : Descriptors F S) (oldfd newfd : Int) :
    (Int → Option Nat) × (Int → Option Nat) :=
  if oldfd = newfd then (t.files.names, t.dirs.names)
  else if t.files.containsKey oldfd then
    (update t.files.names newfd (t.files.names oldfd), update t.dirs.names newfd none)
  else
    (update t.files.names newfd none, update t.dirs.names newfd (t.dirs.names oldfd))

def named (t : Descriptors F S) : DescriptorCall F S → (Int → Option Nat) × (Int → Option Nat)
  | .open_ fd _ => (update t.files.names fd (some t.files.next), t.dirs.names)
  | .fdopendir fd stream =>
    (t.files.names, if (t.files.get fd *> stream).isSome
      then update t.dirs.names fd (some t.dirs.next) else t.dirs.names)
  | .fdReplaced fd => (update t.files.names fd none, update t.dirs.names fd none)
  | .dup oldfd newfd | .dupTo oldfd newfd true =>
    if t.owns oldfd then t.aliasedNames oldfd newfd else (t.files.names, t.dirs.names)
  | .dupTo _ _ false | .update _ _ => (t.files.names, t.dirs.names)

def writes (t : Descriptors F S) : DescriptorCall F S → Nat → F → F
  | .update fd f => t.files.writes fd f
  | _ => fun _ v => v

/-- A descriptor with an open file and a directory stream is duplicated onto itself. -/
def DropsStream (t : Descriptors F S) : DescriptorCall F S → Prop
  | .dup oldfd newfd | .dupTo oldfd newfd true =>
    oldfd = newfd ∧ t.files.containsKey oldfd ∧ t.dirs.containsKey oldfd
  | _ => False

variable {t : Descriptors F S}

theorem aliased_spec (hfiles : t.files.Sound) (hdirs : t.dirs.Sound) {oldfd newfd : Int}
    (howns : t.owns oldfd) :
    ∃ t' n, t.aliased oldfd newfd = some t' ∧ t.files.Becomes n.1 (fun _ v => v) t'.files ∧
      t.dirs.Becomes n.2 (fun _ v => v) t'.dirs ∧ (n = t.aliasedNames oldfd newfd ↔
        ¬(oldfd = newfd ∧ t.files.containsKey oldfd ∧ t.dirs.containsKey oldfd)) := by
  unfold aliased aliasedNames
  by_cases hfile : t.files.containsKey oldfd = true
  · obtain ⟨dirs, r, hremove, -, hgone⟩ := hdirs.remove_spec newfd
    obtain ⟨files, r', halias, htaken⟩ := hfiles.alias_spec oldfd newfd
    rw [if_pos hfile] at htaken ⊢
    refine ⟨⟨files, dirs⟩, (update t.files.names newfd (t.files.names oldfd),
      update t.dirs.names newfd none), by rw [hremove, halias]; rfl, htaken, hgone, ?_⟩
    by_cases hsame : oldfd = newfd
    · subst hsame
      rw [if_pos rfl, update_eq_self, Prod.mk.injEq, update_eq_self_iff]
      simp only [true_and, hfile]
      unfold OpenFiles.containsKey OpenFiles.names
      cases t.dirs.handles.get? oldfd <;> simp
    · rw [if_neg hsame, if_pos hfile]
      exact iff_of_true rfl fun h => hsame h.1
  · have hdir : t.dirs.containsKey oldfd = true := by
      simpa [owns, hfile] using howns
    obtain ⟨files, r, hremove, -, hgone⟩ := hfiles.remove_spec newfd
    obtain ⟨dirs, r', halias, htaken⟩ := hdirs.alias_spec oldfd newfd
    rw [if_pos hdir] at htaken
    rw [if_neg hfile]
    refine ⟨⟨files, dirs⟩, (update t.files.names newfd none,
      update t.dirs.names newfd (t.dirs.names oldfd)), by rw [hremove, halias]; rfl, hgone,
      htaken, iff_of_true ?_ fun h => hfile h.2.1⟩
    by_cases hsame : oldfd = newfd
    · subst hsame
      have hnone : t.files.names oldfd = none := by
        simpa [OpenFiles.containsKey, OpenFiles.names] using hfile
      rw [if_pos rfl, update_eq_self, update_eq_self_iff.mpr hnone.symm]
    · rw [if_neg hsame, if_neg hfile]

theorem step_spec (hfiles : t.files.Sound) (hdirs : t.dirs.Sound) (call : DescriptorCall F S) :
    ∃ t' n, t.step call = some t' ∧ t.files.Becomes n.1 (t.writes call) t'.files ∧
      t.dirs.Becomes n.2 (fun _ v => v) t'.dirs ∧ (n = t.named call ↔ ¬t.DropsStream call) := by
  have hsame := And.intro hfiles.becomes_self hdirs.becomes_self
  have hdup : ∀ oldfd newfd, ∃ t' n, t.dup oldfd newfd = some t' ∧
      t.files.Becomes n.1 (fun _ v => v) t'.files ∧ t.dirs.Becomes n.2 (fun _ v => v) t'.dirs ∧
      (n = t.named (.dup oldfd newfd) ↔ ¬t.DropsStream (.dup oldfd newfd)) := by
    intro oldfd newfd
    simp only [dup, named, DropsStream]
    by_cases howns : t.owns oldfd = true
    · rw [if_pos howns, if_pos howns]
      exact aliased_spec hfiles hdirs howns
    · rw [if_neg howns, if_neg howns]
      refine ⟨t, (_, _), rfl, hsame.1, hsame.2, iff_of_true rfl fun h => howns ?_⟩
      rw [owns, h.2.1, Bool.true_or]
  cases call with
  | open_ fd file =>
    obtain ⟨files, hinsert, hfiles'⟩ := hfiles.insert_spec fd file
    exact ⟨{ t with files }, (_, _), by rw [step, hinsert]; rfl, hfiles',
      hsame.2, iff_of_true rfl id⟩
  | fdopendir fd stream =>
    simp only [step, fdopendir, named]
    cases t.files.get fd *> stream with
    | none => exact ⟨t, (_, _), rfl, hsame.1, hsame.2, iff_of_true rfl id⟩
    | some stream =>
      obtain ⟨dirs, hinsert, hdirs'⟩ := hdirs.insert_spec fd stream
      exact ⟨{ t with dirs }, (_, _), by dsimp only; rw [hinsert]; rfl, hsame.1,
        hdirs', iff_of_true rfl id⟩
  | fdReplaced fd =>
    obtain ⟨files, r, hremove, -, hgone⟩ := hfiles.remove_spec fd
    obtain ⟨dirs, r', hremove', -, hgone'⟩ := hdirs.remove_spec fd
    exact ⟨⟨files, dirs⟩, (_, _), by rw [step, fdReplaced, hremove, hremove']; rfl, hgone, hgone',
      iff_of_true rfl id⟩
  | dup oldfd newfd => exact hdup oldfd newfd
  | dupTo oldfd newfd result =>
    cases result with
    | true =>
      have hstep : t.step (.dupTo oldfd newfd true) = t.dup oldfd newfd := by
        cases howns : t.owns oldfd <;> simp [step, dupTo, dup, howns]
      exact hstep ▸ hdup oldfd newfd
    | false => exact ⟨t, (_, _), by simp [step, dupTo], hsame.1, hsame.2, iff_of_true rfl id⟩
  | update fd f =>
    exact ⟨_, (_, _), rfl, hfiles.getMut_spec fd f, hsame.2, iff_of_true rfl id⟩

/-- **Descriptors share descriptions.** After any calls both tables are sound. The next call keeps
the values of the descriptions that stay and gives no new one an old number; and it changes exactly
the names it should, unless it duplicates a descriptor that has a directory stream onto itself. -/
theorem calls_exact (calls : List (DescriptorCall F S)) :
    ∃ t : Descriptors F S, run {} calls = some t ∧ t.files.Sound ∧ t.dirs.Sound ∧
      (∀ id, t.files.value id = none ↔ ∀ fd, t.files.names fd ≠ some id) ∧
      (∀ id, t.dirs.value id = none ↔ ∀ fd, t.dirs.names fd ≠ some id) ∧
      ∀ call, ∃ t' n, t.step call = some t' ∧
        t.files.Becomes n.1 (t.writes call) t'.files ∧ t.dirs.Becomes n.2 (fun _ v => v) t'.dirs ∧
        (n = t.named call ↔ ¬t.DropsStream call) := by
  suffices h : ∀ t : Descriptors F S, t.files.Sound → t.dirs.Sound →
      ∃ t', run t calls = some t' ∧ t'.files.Sound ∧ t'.dirs.Sound by
    obtain ⟨t, hrun, hfiles, hdirs⟩ := h {} OpenFiles.sound_empty OpenFiles.sound_empty
    exact ⟨t, hrun, hfiles, hdirs, fun _ => hfiles.value_eq_none_iff,
      fun _ => hdirs.value_eq_none_iff,
      step_spec hfiles hdirs⟩
  induction calls with
  | nil => exact fun t hfiles hdirs => ⟨t, rfl, hfiles, hdirs⟩
  | cons call calls ih =>
    intro t hfiles hdirs
    obtain ⟨t₁, n, hstep, hfiles₁, hdirs₁, -⟩ := step_spec hfiles hdirs call
    obtain ⟨t', hrun, hsound⟩ := ih t₁ hfiles₁.sound hdirs₁.sound
    exact ⟨t', by rw [run, List.foldlM_cons, hstep]; exact hrun, hsound⟩

/-- **`dup2` onto itself closes a directory stream**: the descriptor 3 of an open directory has its
stream until then, and is still open. -/
theorem stream_dropped :
    ((run ({} : Descriptors Nat Nat) [.open_ 3 0, .fdopendir 3 (some 0)]).map fun t =>
      (t.files.get 3, t.dirs.get 3)) = some (some 0, some 0) ∧
    ((run ({} : Descriptors Nat Nat) [.open_ 3 0, .fdopendir 3 (some 0), .dupTo 3 3 true]).map
      fun t =>
      (t.files.get 3, t.dirs.get 3)) = some (some 0, none) := by
  decide

end Descriptors

end Snare
