import Snare.Fs.SparseRefines

/-!
# Files sharing a volume

The refinement of one file lifted to any number of files on one volume, and the volume's accounting.
`FlatStep` is the abstract store: a list of byte lists, each with whether it was declared on the
volume, each operation doing to the file it names what `FlatArray` does and answering with its
bytes. How much of a write is stored is left to the volume: all of it, or a non-empty part or
nothing when the volume is full. A file is refused only where its pages exceed what is left.
-/

namespace Snare.Sparse

/-! ## The abstract store -/

/-- A file of the abstract store: whether it was asked to be on the volume, and its bytes. -/
abbrev FlatFile := Bool × List UInt8

/-- The abstract store's answer to an operation, `v` the volume after it. -/
inductive FlatStep (v : Volume) (fs : List (Option FlatFile)) :
    Op → Reply → List (Option FlatFile) → Prop
  | create (bytes : List UInt8) (attached : Bool) :
      FlatStep v fs (.create bytes attached) .done (fs ++ [some (attached, bytes)])
  /-- A declared file that does not fit the volume. -/
  | createRefused {bytes : List UInt8} (hover : v.capacity < v.used + pageCount bytes.length) :
      FlatStep v fs (.create bytes true) .refused fs
  | write {i start n : Nat} {bytes data : List UInt8} {attached : Bool}
      (hfile : fs[i]? = some (some (attached, data))) (hpos : 0 < n) (hle : n ≤ bytes.length)
      (hfull : n < bytes.length → v.used = v.capacity) :
      FlatStep v fs (.write i start bytes) (.wrote n)
        (fs.set i (some (attached, FlatArray.write data start (bytes.take n))))
  | writeNothing {i start : Nat} {file : FlatFile} (hfile : fs[i]? = some (some file)) :
      FlatStep v fs (.write i start []) (.wrote 0) fs
  | writeTooBig {i start : Nat} {bytes : List UInt8} (hbig : start + bytes.length > 2 ^ 63 - 1) :
      FlatStep v fs (.write i start bytes) (.failed .EFBIG) fs
  | writeFull {i start : Nat} {bytes : List UInt8} (hfull : v.used = v.capacity) :
      FlatStep v fs (.write i start bytes) (.failed .ENOSPC) fs
  | resize {i n : Nat} {data : List UInt8} {attached : Bool}
      (hfile : fs[i]? = some (some (attached, data))) :
      FlatStep v fs (.resize i n) .done (fs.set i (some (attached, FlatArray.resize data n)))
  | clear {i : Nat} {data : List UInt8} {attached : Bool}
      (hfile : fs[i]? = some (some (attached, data))) :
      FlatStep v fs (.clear i) .done (fs.set i (some (attached, [])))
  | read {i start len : Nat} {data : List UInt8} {attached : Bool}
      (hfile : fs[i]? = some (some (attached, data))) :
      FlatStep v fs (.read i start len) (.data (FlatArray.read data start len)) fs
  | drop {i : Nat} {file : FlatFile} (hfile : fs[i]? = some (some file)) :
      FlatStep v fs (.drop i) .done (fs.set i none)
  /-- There is no live file of that index. -/
  | missing {op : Op} {i : Nat} (hop : op.file = some i) (hfile : (fs[i]?).join = none) :
      FlatStep v fs op .refused fs

def SparseFile.flat (f : SparseFile) : FlatFile := (f.attached, f.contents)

def Store.contents (s : Store) : List (Option FlatFile) := s.files.map (Option.map SparseFile.flat)

def Store.charges (s : Store) : Nat := (s.files.map fun f => f.elim 0 SparseFile.charge).sum

/-- The volume counts the live files' pages, and no more than it has. -/
def Store.Accounted (s : Store) : Prop :=
  s.volume.used = s.charges ∧ s.volume.used ≤ s.volume.capacity

structure Store.Good (s : Store) : Prop where
  tidy : ∀ f, some f ∈ s.files → f.Tidy
  accounted : s.Accounted

/-! ## One file of the store -/

variable {s : Store} {i : Nat} {f : SparseFile}

theorem file_eq_some :
    s.file i = some f ↔ s.files[i]? = some (some f) :=
  Option.join_eq_some_iff

theorem contents_getElem? (h : s.file i = some f) :
    s.contents[i]? = some (some (f.attached, f.contents)) := by
  simp [Store.contents, file_eq_some.mp h, SparseFile.flat]

theorem contents_set (v : Volume) (files : List (Option SparseFile)) (i : Nat)
    (f : Option SparseFile) :
    Store.contents ⟨v, files.set i f⟩ =
      (files.map (Option.map SparseFile.flat)).set i (f.map SparseFile.flat) := by
  simp [Store.contents]

private theorem sum_map_set {α : Type*} (g : α → Nat) (l : List α) (i : Nat) {a : α} (b : α)
    (h : l[i]? = some a) : ((l.set i b).map g).sum + g a = (l.map g).sum + g b := by
  induction l generalizing i with
  | nil => simp at h
  | cons x l ih =>
    cases i with
    | zero =>
      obtain rfl : x = a := by simpa using h
      simp only [List.set_cons_zero, List.map_cons, List.sum_cons]
      omega
    | succ i =>
      have := ih i (by simpa using h)
      simp only [List.set_cons_succ, List.map_cons, List.sum_cons]
      omega

theorem Store.Good.charge_le (h : s.Good) (hf : s.file i = some f) : f.charge ≤ s.volume.used := by
  have := sum_map_set (fun f => f.elim 0 SparseFile.charge) s.files i none (file_eq_some.mp hf)
  have hused := h.accounted.1
  simp only [Store.charges, Option.elim] at hused this
  omega

theorem Store.Good.replace (h : s.Good) {f' : SparseFile} {v' : Volume}
    (hf : s.file i = some f) (hcharged : Charged s.volume f v' f') (htidy : f'.Tidy) :
    Store.Good ⟨v', s.files.set i (some f')⟩ where
  tidy := by
    intro g hg
    rcases List.mem_or_eq_of_mem_set hg with hg | hg
    · exact h.tidy g hg
    · exact Option.some.inj hg ▸ htidy
  accounted := by
    have := sum_map_set (fun f => f.elim 0 SparseFile.charge) s.files i (some f')
      (file_eq_some.mp hf)
    have hused := h.accounted.1
    have := hcharged.used
    refine ⟨?_, hcharged.bound h.accounted.2⟩
    simp only [Store.charges, Option.elim] at *
    omega

theorem Store.Good.drop (h : s.Good)
    (hf : s.file i = some f) : Store.Good ⟨f.drop s.volume, s.files.set i none⟩ where
  tidy := by
    intro g hg
    rcases List.mem_or_eq_of_mem_set hg with hg | hg
    · exact h.tidy g hg
    · cases hg
  accounted := by
    have hsum := sum_map_set (fun f => f.elim 0 SparseFile.charge) s.files i none
      (file_eq_some.mp hf)
    have hused : (f.drop s.volume).used = s.volume.used - f.charge ∧
        (f.drop s.volume).capacity = s.volume.capacity := by
      unfold SparseFile.drop SparseFile.charge
      split <;> simp
    obtain ⟨hacc, hbound⟩ := h.accounted
    refine ⟨?_, ?_⟩
    · simp only [Store.charges, Option.elim] at *
      omega
    · change (f.drop s.volume).used ≤ (f.drop s.volume).capacity
      omega

theorem set_file_self (h : s.file i = some f) : s.files.set i (some f) = s.files := by
  obtain ⟨hlt, hget⟩ := List.getElem?_eq_some_iff.mp (file_eq_some.mp h)
  rw [← hget]
  exact List.set_getElem_self hlt

theorem Store.Good.create (h : s.Good) {v : Volume} (htidy : f.Tidy)
    (hused : v.used = s.volume.used + f.charge) (hbound : v.used ≤ v.capacity) :
    Store.Good ⟨v, s.files ++ [some f]⟩ where
  tidy := by
    intro g hg
    rcases List.mem_append.mp hg with hg | hg
    · exact h.tidy g hg
    · obtain rfl : g = f := by simpa using hg
      exact htidy
  accounted := by
    refine ⟨?_, hbound⟩
    have := h.accounted.1
    simp only [Store.charges, List.map_append, List.sum_append, List.map_cons, List.map_nil,
      List.sum_cons, List.sum_nil, Option.elim] at *
    omega

/-! ## The step and the run -/

/-- An operation keeps the store good and does what the abstract store does. -/
def Store.Follows (s : Store) (op : Op) : Prop :=
  (s.step op).Good ∧ FlatStep (s.step op).volume s.contents op (s.apply op).2 (s.step op).contents

theorem Store.Good.missing (h : s.Good) {op : Op} {i : Nat} (hop : op.file = some i)
    (hnone : s.file i = none) : s.Follows op := by
  have happly : s.apply op = (s, .refused) := by
    cases op <;> cases hop <;> simp only [Store.apply, hnone]
  rw [Store.Follows, Store.step, happly]
  refine ⟨h, .missing hop ?_⟩
  simp only [Store.contents, List.getElem?_map]
  simp only [Store.file] at hnone
  cases hget : s.files[i]? with
  | none => rfl
  | some f => simp_all

theorem Store.Good.applyCreate (h : s.Good) (bytes : List UInt8) (attached : Bool) :
    s.Follows (.create bytes attached) := by
  have hcontents : ∀ v f, f.contents = bytes →
      Store.contents ⟨v, s.files ++ [some f]⟩ = s.contents ++ [some (f.attached, bytes)] := by
    intro v f hf
    simp [Store.contents, SparseFile.flat, hf]
  cases attached with
  | false =>
    have hcharge : (SparseFile.new bytes).charge = 0 := rfl
    simp only [Store.Follows, Store.step, Store.apply, Bool.false_eq_true, if_false]
    refine ⟨h.create (tidy_new bytes) (by rw [hcharge, Nat.add_zero]) h.accounted.2, ?_⟩
    rw [hcontents _ _ (contents_new bytes)]
    exact .create bytes false
  | true =>
    simp only [Store.Follows, Store.step, Store.apply, if_true, SparseFile.attach]
    -- the pages of the first bytes are reserved, or the file is not made
    by_cases hfits : s.volume.used + (SparseFile.new bytes).pages.size ≤ s.volume.capacity
    · simp only [hfits, if_true]
      have hnew : SparseFile.contents { SparseFile.new bytes with attached := true } = bytes :=
        contents_new bytes
      refine ⟨h.create (tidy_new bytes) rfl hfits, ?_⟩
      rw [hcontents _ _ hnew]
      exact .create bytes true
    · simp only [hfits, if_false]
      refine ⟨h, .createRefused ?_⟩
      rw [← size_declaredPages bytes 0]
      exact Nat.lt_of_not_le hfits

theorem Store.Good.applyWrite (h : s.Good) {i : Nat} (hf : s.file i = some f) (start : Nat)
    (bytes : List UInt8) : s.Follows (.write i start bytes) := by
  have htidy := h.tidy f (List.mem_of_getElem? (file_eq_some.mp hf))
  by_cases hne : bytes = []
  · subst hne
    simp only [Store.Follows, Store.step, Store.apply, hf, List.isEmpty_nil, if_true]
    exact ⟨h, .writeNothing (contents_getElem? hf)⟩
  have hend := write_end start htidy h.accounted.2 hne
  simp only [Store.Follows, Store.step, Store.apply, hf, List.isEmpty_iff, hne, if_false]
  generalize f.write s.volume start bytes = r at hend ⊢
  cases hend with
  | stored hcharged hpos hle htidy' hcontents hfull =>
    refine ⟨h.replace hf hcharged htidy', ?_⟩
    rw [contents_set, Option.map_some, SparseFile.flat, hcontents, hcharged.attached]
    exact .write (contents_getElem? hf) hpos hle hfull
  | tooBig hbig =>
    simp only [set_file_self hf]
    exact ⟨h, .writeTooBig hbig⟩
  | full hfull =>
    simp only [set_file_self hf]
    exact ⟨h, .writeFull hfull⟩

/-- **The step lemma.** -/
theorem Store.Good.apply (h : s.Good) (op : Op) : s.Follows op := by
  by_cases hmissing : ∃ i, op.file = some i ∧ s.file i = none
  · obtain ⟨i, hop, hnone⟩ := hmissing
    exact h.missing hop hnone
  have hfile : ∀ i, op.file = some i → ∃ f, s.file i = some f := fun i hop =>
    Option.ne_none_iff_exists'.mp fun hnone => hmissing ⟨i, hop, hnone⟩
  have htidy : ∀ {i f}, s.file i = some f → f.Tidy := fun hf =>
    h.tidy _ (List.mem_of_getElem? (file_eq_some.mp hf))
  cases op with
  | create bytes attached => exact h.applyCreate bytes attached
  | write i start bytes =>
    obtain ⟨f, hf⟩ := hfile i rfl
    exact h.applyWrite hf start bytes
  | resize i n =>
    obtain ⟨f, hf⟩ := hfile i rfl
    simp only [Store.Follows, Store.step, Store.apply, hf]
    refine ⟨h.replace hf (charged_resize n (h.charge_le hf)) (tidy_resize _ f n), ?_⟩
    rw [contents_set, Option.map_some, SparseFile.flat, contents_resize (htidy hf)]
    exact .resize (contents_getElem? hf)
  | clear i =>
    obtain ⟨f, hf⟩ := hfile i rfl
    simp only [Store.Follows, Store.step, Store.apply, hf, SparseFile.clear]
    refine ⟨h.replace hf (charged_resize 0 (h.charge_le hf)) (tidy_resize _ f 0), ?_⟩
    rw [contents_set, Option.map_some, SparseFile.flat, contents_resize (htidy hf),
      show FlatArray.resize f.contents 0 = [] by simp [FlatArray.resize]]
    have hclear : FlatStep (f.resize s.volume 0).1 s.contents (.clear i) .done
        (s.contents.set i (some (f.attached, []))) := .clear (contents_getElem? hf)
    exact hclear
  | read i start len =>
    obtain ⟨f, hf⟩ := hfile i rfl
    simp only [Store.Follows, Store.step, Store.apply, hf, read_eq (htidy hf)]
    exact ⟨h, .read (contents_getElem? hf)⟩
  | drop i =>
    obtain ⟨f, hf⟩ := hfile i rfl
    simp only [Store.Follows, Store.step, Store.apply, hf]
    refine ⟨h.drop hf, ?_⟩
    rw [contents_set, Option.map_none]
    exact .drop (contents_getElem? hf)

/-- **Sparse files refine flat arrays.** In every run on files sharing a volume of any capacity,
each operation answers and changes the files as the array model does, and the volume's use is the
number of the pages of the live files declared on it, never more than its capacity. -/
theorem store_refines (capacity : Nat) (ops : List Op) : Runs.Along Store.step
        (fun s op => FlatStep (s.step op).volume s.contents op (s.apply op).2 (s.step op).contents)
        (Store.new capacity) ops ∧
      Runs.Always Store.step Store.Accounted (Store.new capacity) ops := by
  have hinit : (Store.new capacity).Good := ⟨by simp [Store.new], rfl, Nat.zero_le _⟩
  have hgood : Runs.Always Store.step Store.Good (Store.new capacity) ops :=
    Runs.always_of_step (fun _ op h => (h.apply op).1) hinit ops
  exact ⟨Runs.along_of_step (fun _ op h => (h.apply op).1) (fun _ op h => (h.apply op).2) hinit ops,
    hgood.imp fun _ h => h.accounted⟩

end Snare.Sparse
