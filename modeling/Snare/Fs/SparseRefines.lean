import Snare.Fs.Sparse
import Snare.Lib.FlatArray
import Snare.Lib.Runs

/-!
# Sparse files refine flat arrays

The abstract file is the list of its bytes (`SparseFile.contents`); the operations on it are those
of `FlatArray`. A file is described through the byte at every offset (`SparseFile.byte`), past its
end included, and one invariant carries the refinement:

* **`Tidy`**: every byte past the length is zero. So a file grows by zeros whatever stood in its
  last page before a shrink, and a gap that a write leaves reads as zero.

What each operation does to the bytes is one lemma (`byte_resize`, `byte_allocateFrom`,
`byte_copyFrom`), and what it does to the volume another (`Charged`). `store_refines` runs them.
-/

namespace Snare.Sparse

/-! ## Bytes -/

theorem pageSize_pos : 0 < pageSize := by decide

/-- The byte at offset `i`, allocated or not. -/
def byteAt (pages : SortedMap Nat Page) (i : Nat) : UInt8 :=
  match pages.get? (i / pageSize) with
  | some page => page.bytes.getD (i % pageSize) 0
  | none => 0

def SparseFile.byte (f : SparseFile) (i : Nat) : UInt8 := byteAt f.pages i

def SparseFile.contents (f : SparseFile) : List UInt8 := FlatArray.tabulate f.length f.byte

def SparseFile.Tidy (f : SparseFile) : Prop := ∀ i, f.length ≤ i → f.byte i = 0

variable {f f' : SparseFile}

theorem SparseFile.Tidy.getD_contents (h : f.Tidy) (i : Nat) : f.contents.getD i 0 = f.byte i := by
  rw [contents, FlatArray.getD_tabulate]
  split
  · rfl
  · next hi => exact (h i (by omega)).symm

@[simp] theorem SparseFile.length_contents (f : SparseFile) : f.contents.length = f.length :=
  FlatArray.length_tabulate _ _

theorem Page.getD_zero (i : Nat) : Page.zero.bytes.getD i 0 = 0 :=
  FlatArray.getD_pad ([] : List UInt8) pageSize i

theorem Page.getD_copyFrom (p : Page) (within : Nat) (chunk : List UInt8) {i : Nat}
    (hi : i < pageSize) :
    (p.copyFrom within chunk).bytes.getD i 0 =
      if within ≤ i ∧ i < within + chunk.length then chunk.getD (i - within) 0
      else p.bytes.getD i 0 := by
  have hlen : i < p.bytes.length := p.length_eq ▸ hi
  rw [List.getD_eq_getElem _ 0 (by simpa [copyFrom] using hlen), List.getD_eq_getElem _ 0 hlen]
  simp only [copyFrom, List.getElem_mapIdx]
  by_cases hw : within ≤ i
  · rcases Nat.lt_or_ge i (within + chunk.length) with hc | hc
    · rw [if_pos hw, if_pos ⟨hw, hc⟩, List.getD_eq_getElem _ _ (by omega),
        List.getD_eq_getElem _ _ (by omega)]
    · rw [if_pos hw, if_neg (by omega), List.getD_eq_default _ _ (by omega)]
  · rw [if_neg hw, if_neg (by omega)]

theorem Page.getD_zeroFrom (p : Page) (within : Nat) {i : Nat} (hi : i < pageSize) :
    (p.zeroFrom within).bytes.getD i 0 = if within ≤ i then 0 else p.bytes.getD i 0 := by
  have hlen : i < p.bytes.length := p.length_eq ▸ hi
  rw [List.getD_eq_getElem _ 0 (by simpa [zeroFrom] using hlen), List.getD_eq_getElem _ 0 hlen]
  simp [zeroFrom]

theorem byteAt_insert (pages : SortedMap Nat Page) (index : Nat) (page : Page) (i : Nat) :
    byteAt (pages.insert index page) i =
      if i / pageSize = index then page.bytes.getD (i % pageSize) 0 else byteAt pages i := by
  unfold byteAt
  rw [SortedMap.get?_insert]
  split
  · next h => split at h <;> simp_all
  · next h => split at h <;> simp_all

/-! ## Declared files -/

variable (bytes : List UInt8)

theorem byteAt_declaredPages (index j : Nat) :
    byteAt (declaredPages bytes index) (index * pageSize + j) = bytes.getD j 0 := by
  fun_induction declaredPages bytes index generalizing j with
  | case1 bytes index hnil =>
    rw [List.isEmpty_iff] at hnil
    simp [hnil, byteAt]
  | case2 bytes index hne ih =>
    rw [byteAt_insert]
    have hpos := pageSize_pos
    rcases Nat.lt_or_ge j pageSize with hj | hj
    · -- the byte is in the first page
      have hdiv : (index * pageSize + j) / pageSize = index := by
        rw [Nat.mul_comm, Nat.mul_add_div hpos, Nat.div_eq_of_lt hj, Nat.add_zero]
      have hmod : (index * pageSize + j) % pageSize = j := by
        rw [Nat.mul_comm, Nat.mul_add_mod, Nat.mod_eq_of_lt hj]
      rw [if_pos hdiv, hmod, Page.getD_copyFrom _ _ _ hj, Page.getD_zero, FlatArray.getD_take]
      split
      · simp [hj]
      · next hlen =>
        simp only [List.length_take] at hlen
        exact (List.getD_eq_default bytes 0 (by omega)).symm
    · have hdiv : (index * pageSize + j) / pageSize ≠ index := by
        rw [Nat.mul_comm, Nat.mul_add_div hpos]
        have := Nat.div_pos hj hpos
        omega
      have := ih (j - pageSize)
      rw [show (index + 1) * pageSize + (j - pageSize) = index * pageSize + j by
        rw [Nat.add_mul]; omega] at this
      rw [if_neg hdiv, this, List.getD_eq_getElem?_getD, List.getElem?_drop,
        ← List.getD_eq_getElem?_getD, show pageSize + (j - pageSize) = j by omega]

theorem get?_declaredPages {index j : Nat} (h : j < index) :
    (declaredPages bytes index).get? j = none := by
  fun_induction declaredPages bytes index with
  | case1 => rfl
  | case2 bytes index hne ih =>
    rw [SortedMap.get?_insert, if_neg (by omega)]
    exact ih (by omega)

/-- A declared file has a page for every page its bytes reach into. -/
theorem size_declaredPages (index : Nat) :
    (declaredPages bytes index).size = pageCount bytes.length := by
  fun_induction declaredPages bytes index with
  | case1 bytes index hnil =>
    rw [List.isEmpty_iff.mp hnil]
    rfl
  | case2 bytes index hne ih =>
    have hnew := get?_declaredPages (bytes.drop pageSize) (Nat.lt_succ_self index)
    have hsize := (declaredPages (bytes.drop pageSize) (index + 1)).size_alter index
      fun _ => some (Page.zero.copyFrom 0 (bytes.take pageSize))
    have hlen : bytes.length ≠ 0 := by simpa using hne
    rw [hnew, ih, List.length_drop] at hsize
    change (SortedMap.alter _ _ _).size = _
    simp only [Option.toList, List.length_nil, List.length_singleton, pageCount, pageSize] at *
    omega

theorem byte_new (i : Nat) : (SparseFile.new bytes).byte i = bytes.getD i 0 := by
  have := byteAt_declaredPages bytes 0 i
  rwa [Nat.zero_mul, Nat.zero_add] at this

theorem tidy_new : (SparseFile.new bytes).Tidy := fun i hi => by
  rw [byte_new]
  exact List.getD_eq_default bytes 0 hi

theorem contents_new : (SparseFile.new bytes).contents = bytes :=
  FlatArray.ext_getD (SparseFile.length_contents _) fun i => by
    rw [(tidy_new bytes).getD_contents, byte_new]

/-! ## Resizing -/

theorem lt_pageCount_iff (index n : Nat) : index < pageCount n ↔ index * pageSize < n := by
  unfold pageCount
  rw [Nat.lt_div_iff_mul_lt pageSize_pos]
  have := pageSize_pos
  omega

theorem byte_resize (v : Volume) (f : SparseFile) (n i : Nat) :
    (f.resize v n).2.byte i = if i < n then f.byte i else 0 := by
  have hmod := Nat.mod_lt i pageSize_pos
  have hi : i = i / pageSize * pageSize + i % pageSize := (Nat.div_add_mod' i pageSize).symm
  have hn : n = n / pageSize * pageSize + n % pageSize := (Nat.div_add_mod' n pageSize).symm
  have hgone : ¬ i / pageSize < pageCount n → ¬ i < n := by
    rw [lt_pageCount_iff]
    omega
  simp only [SparseFile.byte, byteAt, SparseFile.resize, SortedMap.get?_alter,
    SortedMap.get?_retain]
  by_cases hlast : i / pageSize = n / pageSize
  · -- the page the new end is in: its bytes from the end on are zeroed
    have hcut : n % pageSize ≤ i % pageSize ↔ ¬ i < n := by
      rw [hlast] at hi
      omega
    rw [if_pos hlast, ← hlast]
    cases hpage : f.pages.get? (i / pageSize) with
    | none => simp
    | some page =>
      by_cases hkept : i / pageSize < pageCount n
      · simp only [Option.filter, hkept, decide_true, if_true, Option.map_some,
          Page.getD_zeroFrom page _ hmod, hcut, ite_not]
      · simp [Option.filter, hkept, hgone hkept]
  · rw [if_neg hlast]
    cases hpage : f.pages.get? (i / pageSize) with
    | none => simp
    | some page =>
      by_cases hkept : i / pageSize < pageCount n
      · -- a kept page before the last one lies before the end
        have hlt : i / pageSize < n / pageSize := by
          rw [lt_pageCount_iff] at hkept
          have := (Nat.le_div_iff_mul_le pageSize_pos).mpr hkept.le
          omega
        simp [Option.filter, hkept, Nat.lt_of_div_lt_div hlt]
      · simp [Option.filter, hkept, hgone hkept]

theorem tidy_resize (v : Volume) (f : SparseFile) (n : Nat) : (f.resize v n).2.Tidy := by
  intro i hi
  exact (byte_resize v f n i).trans (if_neg (Nat.not_lt.mpr hi))

theorem contents_resize (h : f.Tidy) (v : Volume) (n : Nat) :
    (f.resize v n).2.contents = FlatArray.resize f.contents n := by
  refine FlatArray.ext_getD (by simp [SparseFile.resize]) fun i => ?_
  rw [(tidy_resize v f n).getD_contents, byte_resize, FlatArray.getD_resize, h.getD_contents]

/-! ## Reading -/

theorem add_lt_page (start len pos : Nat) {k : Nat} (hk : k < inPage start len pos) :
    (start + pos + k) / pageSize = (start + pos) / pageSize ∧
      (start + pos + k) % pageSize = (start + pos) % pageSize + k := by
  have hlt : (start + pos) % pageSize + k < pageSize := by
    simp only [inPage] at hk
    omega
  constructor
  · rw [← Nat.div_add_mod (start + pos) pageSize, Nat.add_assoc, Nat.mul_add_div pageSize_pos,
      Nat.div_eq_of_lt hlt, Nat.mul_add_div pageSize_pos]
    simp [Nat.div_eq_of_lt (Nat.mod_lt _ pageSize_pos)]
  · rw [Nat.add_mod, Nat.mod_eq_of_lt (show k < pageSize by omega), Nat.mod_eq_of_lt hlt]

variable {start index : Nat}

theorem chunk_eq (f : SparseFile) {len pos : Nat} :
    (match f.pages.get? ((start + pos) / pageSize) with
      | some page => (page.bytes.drop ((start + pos) % pageSize)).take (inPage start len pos)
      | none => List.replicate (inPage start len pos) 0) =
      FlatArray.tabulate (inPage start len pos) fun i => f.byte (start + pos + i) := by
  have hin : inPage start len pos ≤ pageSize - (start + pos) % pageSize := Nat.min_le_left _ _
  refine FlatArray.ext_getD ?_ fun i => ?_
  · split
    · next page _ => simp [page.length_eq, hin]
    · simp
  rw [FlatArray.getD_tabulate]
  by_cases hi : i < inPage start len pos
  · obtain ⟨hdiv, hmod⟩ := add_lt_page _ _ _ hi
    rw [if_pos hi, SparseFile.byte, byteAt, hdiv, hmod]
    cases f.pages.get? ((start + pos) / pageSize) with
    | none => exact FlatArray.getD_pad [] _ _
    | some page =>
      rw [FlatArray.getD_take, if_pos hi, List.getD_eq_getElem?_getD, List.getElem?_drop,
        ← List.getD_eq_getElem?_getD]
  · rw [if_neg hi]
    refine List.getD_eq_default _ 0 ?_
    split <;> simp <;> omega

theorem readFrom_eq (f : SparseFile) (start count read : Nat) (hle : read ≤ count) :
    f.readFrom start count read =
      FlatArray.tabulate (count - read) fun i => f.byte (start + read + i) := by
  fun_induction SparseFile.readFrom f start count read with
  | case1 read hlt n chunk ih =>
    have hn : n ≤ count - read := Nat.min_le_right _ _
    rw [show chunk = _ from chunk_eq f, ih (by omega),
      show count - read = n + (count - (read + n)) by omega, FlatArray.tabulate_add]
    simp only [Nat.add_assoc]
    rfl
  | case2 read hge =>
    rw [show count - read = 0 by omega]
    rfl

theorem read_eq (h : f.Tidy) (start len : Nat) :
    f.read start len = FlatArray.read f.contents start len := by
  rw [SparseFile.read, readFrom_eq f start _ 0 (Nat.zero_le _), FlatArray.read_eq_tabulate]
  simp only [h.getD_contents, SparseFile.length_contents, Nat.add_zero, Nat.sub_zero]

/-! ## Allocating -/

def SparseFile.charge (f : SparseFile) : Nat := if f.attached then f.pages.size else 0

/-- The volume's use changes by what the file's charge does, and stays within the capacity. -/
structure Charged (v : Volume) (f : SparseFile) (v' : Volume) (f' : SparseFile) : Prop where
  capacity : v'.capacity = v.capacity
  attached : f'.attached = f.attached
  used : v'.used + f.charge = v.used + f'.charge
  bound : v.used ≤ v.capacity → v'.used ≤ v'.capacity

theorem Charged.refl (v : Volume) (f : SparseFile) : Charged v f v f := ⟨rfl, rfl, rfl, id⟩

variable {v v' : Volume}

theorem Charged.trans {v'' : Volume} {f'' : SparseFile} (h : Charged v f v' f')
    (h' : Charged v' f' v'' f'') : Charged v f v'' f'' where
  capacity := h'.capacity.trans h.capacity
  attached := h'.attached.trans h.attached
  used := by have := h.used; have := h'.used; omega
  bound := h'.bound ∘ h.bound

def SparseFile.Allocated (f : SparseFile) (i : Nat) : Prop :=
  (f.pages.get? (i / pageSize)).isSome

/-- Pages were added, and nothing else of the file changed. -/
structure Grown (v : Volume) (f : SparseFile) (v' : Volume) (f' : SparseFile) : Prop where
  charged : Charged v f v' f'
  length : f'.length = f.length
  byte : ∀ i, f'.byte i = f.byte i
  allocated : ∀ i, f.Allocated i → f'.Allocated i

theorem Grown.refl (v : Volume) (f : SparseFile) : Grown v f v f :=
  ⟨.refl v f, rfl, fun _ => rfl, fun _ => id⟩

theorem Grown.trans {v'' : Volume} {f'' : SparseFile} (h : Grown v f v' f')
    (h' : Grown v' f' v'' f'') : Grown v f v'' f'' where
  charged := h.charged.trans h'.charged
  length := h'.length.trans h.length
  byte := fun i => (h'.byte i).trans (h.byte i)
  allocated := fun i => h'.allocated i ∘ h.allocated i

theorem byte_insert_zero (h : f.pages.get? index = none) (i : Nat) :
    byteAt (f.pages.insert index Page.zero) i = f.byte i := by
  rw [byteAt_insert]
  split
  · next hi => rw [Page.getD_zero, SparseFile.byte, byteAt, hi, h]
  · rfl

theorem size_insert {m : SortedMap Nat Page} (page : Page)
    (h : m.get? index = none) : (m.insert index page).size = m.size + 1 := by
  have := m.size_alter index fun _ => some page
  simpa [h, SortedMap.insert] using this

theorem allocate_ok
    (h : f.allocate v index = .ok (v', f')) : Grown v f v' f' ∧ (f'.pages.get? index).isSome := by
  unfold SparseFile.allocate at h
  split at h
  · next hsome =>
    cases h
    exact ⟨.refl v f, hsome⟩
  · next hnone =>
    rw [Bool.not_eq_true, Option.isSome_eq_false_iff, Option.isNone_iff_eq_none] at hnone
    have hself : ((f.pages.insert index Page.zero).get? index).isSome := by
      simp [SortedMap.get?_insert]
    have hmono : ∀ i, f.Allocated i →
        ((f.pages.insert index Page.zero).get? (i / pageSize)).isSome := by
      intro i hi
      rw [SortedMap.get?_insert]
      split
      · rfl
      · exact hi
    split at h
    · next hatt =>
      split at h
      · next w hw =>
        cases h
        unfold Volume.reserve at hw
        split at hw
        · next hlt =>
          cases hw
          refine ⟨⟨⟨rfl, rfl, ?_, ?_⟩, rfl, byte_insert_zero hnone, hmono⟩, hself⟩
          · simp only [SparseFile.charge, hatt, if_true, size_insert _ hnone]
            omega
          · intro _
            exact hlt
        · cases hw
      · cases h
    · next hatt =>
      cases h
      refine ⟨⟨⟨rfl, rfl, ?_, id⟩, rfl, byte_insert_zero hnone, hmono⟩, hself⟩
      simp [SparseFile.charge, hatt]

theorem allocate_error {errno : Errno}
    (h : f.allocate v index = .error errno) : errno = .ENOSPC ∧ v.capacity ≤ v.used := by
  unfold SparseFile.allocate at h
  split at h
  · cases h
  · dsimp only at h
    split at h
    · split at h
      · cases h
      · next hres =>
        cases h
        unfold Volume.reserve at hres
        split at hres
        · cases hres
        · next hfull => exact ⟨rfl, Nat.not_lt.mp hfull⟩
    · cases h

inductive AllocateEnd (v : Volume) (f : SparseFile) (start len allocated : Nat) :
    Volume × SparseFile × Except Errno Nat → Prop
  /-- Pages for the first `n` bytes; fewer than asked for only on a full volume. -/
  | upTo {v' : Volume} {f' : SparseFile} {n : Nat} (hgrown : Grown v f v' f') (hge : allocated ≤ n)
      (hle : n ≤ len) (hpos : allocated < len → 0 < n)
      (hall : ∀ j < n, f'.Allocated (start + j)) (hfull : n < len → v'.capacity ≤ v'.used) :
      AllocateEnd v f start len allocated (v', f', .ok n)
  /-- No page for the first byte. -/
  | full (hzero : allocated = 0) (hfull : v.capacity ≤ v.used) :
      AllocateEnd v f start len allocated (v, f, .error .ENOSPC)

theorem allocated_step {len allocated : Nat} (hall : ∀ j < allocated, f.Allocated (start + j))
    (hpage : (f.pages.get? ((start + allocated) / pageSize)).isSome) :
    ∀ j < allocated + inPage start len allocated, f.Allocated (start + j) := by
  intro j hj
  rcases Nat.lt_or_ge j allocated with h | h
  · exact hall j h
  · have := (add_lt_page start len allocated (k := j - allocated) (by omega)).1
    rw [show start + allocated + (j - allocated) = start + j by omega] at this
    rwa [SparseFile.Allocated, this]

/-- **The allocation loop**: it ends with pages for a non-empty prefix, or without the first page.
-/
theorem allocateFrom_end (v : Volume) (f : SparseFile) (start len allocated : Nat)
    (hle : allocated ≤ len) (hall : ∀ j < allocated, f.Allocated (start + j)) :
    AllocateEnd v f start len allocated (f.allocateFrom v start len allocated) := by
  fun_induction SparseFile.allocateFrom v f start len allocated with
  | case1 v f allocated hlt errno herr =>
    obtain ⟨rfl, hfull⟩ := allocate_error herr
    split
    · next hzero => exact .full hzero hfull
    · next hzero =>
      exact .upTo (.refl v f) le_rfl hle (fun _ => Nat.pos_of_ne_zero hzero) hall (fun _ => hfull)
  | case2 v f allocated hlt v' f' hok ih =>
    obtain ⟨hgrown, hpage⟩ := allocate_ok hok
    have hpos := inPage_pos start hlt
    have hin : inPage start len allocated ≤ len - allocated := Nat.min_le_right _ _
    have hend := ih (by omega)
      (allocated_step (fun j hj => hgrown.allocated _ (hall j hj)) hpage)
    generalize f'.allocateFrom v' start len (allocated + inPage start len allocated) = r at hend ⊢
    cases hend with
    | upTo hgrown' hge hle hpos' hall' hfull =>
      exact .upTo (hgrown.trans hgrown') (by omega) hle (fun _ => by omega) hall' hfull
    | full hzero hfull => omega
  | case3 v f allocated hge =>
    exact .upTo (.refl v f) le_rfl hle (fun h => absurd h hge) hall (fun h => absurd h hge)

/-! ## Copying -/

theorem byte_copyStep {written : Nat} {bytes : List UInt8} {page : Page}
    (hpage : f.pages.get? ((start + written) / pageSize) = some page) (i : Nat) :
    let count := inPage start bytes.length written
    byteAt (f.pages.insert ((start + written) / pageSize)
        (page.copyFrom ((start + written) % pageSize) ((bytes.drop written).take count))) i =
      if start + written ≤ i ∧ i < start + written + count then bytes.getD (i - start) 0
      else f.byte i := by
  intro count
  have hcount : count ≤ bytes.length - written := Nat.min_le_right _ _
  have hlen : ((bytes.drop written).take count).length = count := by
    simp only [List.length_take, List.length_drop]
    omega
  rw [byteAt_insert]
  split
  · next hsame =>
    have hi := Nat.div_add_mod' i pageSize
    have hoff := Nat.div_add_mod' (start + written) pageSize
    rw [Page.getD_copyFrom _ _ _ (Nat.mod_lt _ pageSize_pos), hlen]
    rw [hsame] at hi
    have hiff : ((start + written) % pageSize ≤ i % pageSize ∧
        i % pageSize < (start + written) % pageSize + count) ↔
        (start + written ≤ i ∧ i < start + written + count) := by omega
    simp only [hiff]
    split
    · next hin =>
      rw [FlatArray.getD_take, if_pos (by omega), List.getD_eq_getElem?_getD, List.getElem?_drop,
        ← List.getD_eq_getElem?_getD]
      congr 1
      omega
    · rw [SparseFile.byte, byteAt, hsame, hpage]
  · next hother =>
    rw [if_neg]
    · rfl
    · rintro ⟨hge, hlt⟩
      have := (add_lt_page start bytes.length written (k := i - (start + written))
        (show _ < count by omega)).1
      rw [show start + written + (i - (start + written)) = i by omega] at this
      exact hother this

theorem size_insert_same {m : SortedMap Nat Page} {page : Page} (page' : Page)
    (h : m.get? index = some page) : (m.insert index page').size = m.size := by
  have := m.size_alter index fun _ => some page'
  simpa [h, SortedMap.insert] using this

/-- **The copy loop** writes every byte from `written` on, when all their pages are allocated. -/
theorem copyFrom_spec (f : SparseFile) (start : Nat) (bytes : List UInt8) (written : Nat)
    (hle : written ≤ bytes.length) (hall : ∀ j < bytes.length, f.Allocated (start + j)) :
    ∃ f', f.copyFrom start bytes written = some f' ∧ f'.length = f.length ∧
      f'.attached = f.attached ∧ f'.pages.size = f.pages.size ∧
      ∀ i, f'.byte i =
        if start + written ≤ i ∧ i < start + bytes.length then bytes.getD (i - start) 0
        else f.byte i := by
  fun_induction SparseFile.copyFrom f start bytes written with
  | case1 f written hlt offset hnone =>
    have := hall written hlt
    rw [SparseFile.Allocated, show start + written = offset from rfl, hnone] at this
    cases this
  | case2 f written hlt offset count page hpage page' ih =>
    have hin : count ≤ bytes.length - written := Nat.min_le_right _ _
    obtain ⟨f', hf', hlen, hatt, hsize, hbyte⟩ := ih (by omega) fun j hj => by
      have := hall j hj
      simp only [SparseFile.Allocated, SortedMap.get?_insert] at this ⊢
      split
      · rfl
      · exact this
    refine ⟨f', hf', hlen, hatt, hsize.trans (size_insert_same _ hpage), fun i => ?_⟩
    rw [hbyte, SparseFile.byte, byte_copyStep hpage]
    -- what this step copied, and what the rest of the loop copies
    split
    · next hrest => rw [if_pos (by omega)]
    · next hrest =>
      split
      · next hstep => rw [if_pos (by omega)]
      · next hstep => rw [if_neg (by omega)]
  | case3 f written hge =>
    exact ⟨f, rfl, rfl, rfl, rfl, fun i => by rw [if_neg (by omega)]⟩

/-! ## Writing -/

inductive WriteEnd (v : Volume) (f : SparseFile) (start : Nat) (bytes : List UInt8) :
    Option (Volume × SparseFile × Except Errno Nat) → Prop
  /-- The first `n` bytes are stored; fewer than asked for only on a full volume. -/
  | stored {v' : Volume} {f' : SparseFile} {n : Nat} (hcharged : Charged v f v' f') (hpos : 0 < n)
      (hle : n ≤ bytes.length) (htidy : f'.Tidy)
      (hcontents : f'.contents = FlatArray.write f.contents start (bytes.take n))
      (hfull : n < bytes.length → v'.used = v'.capacity) :
      WriteEnd v f start bytes (some (v', f', .ok n))
  /-- Past the largest file size, nothing happens. -/
  | tooBig (hbig : start + bytes.length > 2 ^ 63 - 1) :
      WriteEnd v f start bytes (some (v, f, .error .EFBIG))
  /-- On a full volume, nothing happens. -/
  | full (hfull : v.used = v.capacity) : WriteEnd v f start bytes (some (v, f, .error .ENOSPC))

theorem write_end (start : Nat) {bytes : List UInt8}
    (htidy : f.Tidy) (hbound : v.used ≤ v.capacity) (hne : bytes ≠ []) :
    WriteEnd v f start bytes (f.write v start bytes) := by
  unfold SparseFile.write
  split
  · next hbig => exact .tooBig hbig
  · have hend := allocateFrom_end v f start bytes.length 0 (Nat.zero_le _) (by simp)
    generalize f.allocateFrom v start bytes.length 0 = r at hend ⊢
    cases hend with
    | full _ hfull => exact .full (by omega)
    | @upTo v' f' n hgrown hge hle hpos hall hfull =>
      have hlen : (bytes.take n).length = n := by simpa using hle
      obtain ⟨f'', hf'', hlength, hatt, hsize, hbyte⟩ :=
        copyFrom_spec f' start (bytes.take n) 0 (Nat.zero_le _) (fun j hj => hall j (by omega))
      simp only [hf'', Option.map_some]
      have hbytes : ∀ i, f''.byte i =
          if start ≤ i ∧ i < start + n then (bytes.take n).getD (i - start) 0 else f.byte i := by
        intro i
        rw [hbyte, hlen, hgrown.byte, Nat.add_zero]
      have htidy' : SparseFile.Tidy { f'' with length := max f''.length (start + n) } := by
        intro i hi
        have hi : max f''.length (start + n) ≤ i := hi
        refine (hbytes i).trans ?_
        rw [if_neg (by omega), htidy i (by have := hgrown.length; omega)]
      refine .stored ?_ (hpos (List.length_pos_iff.mpr hne)) hle htidy' ?_ ?_
      · refine hgrown.charged.trans ⟨rfl, hatt, ?_, id⟩
        simp only [SparseFile.charge, hatt, hsize]
      · refine FlatArray.ext_getD ?_ fun i => ?_
        · rw [FlatArray.length_write, SparseFile.length_contents, SparseFile.length_contents, hlen,
            hlength, hgrown.length]
        · rw [htidy'.getD_contents, FlatArray.getD_write, htidy.getD_contents, hlen]
          exact hbytes i
      · intro hlt
        exact le_antisymm (hgrown.charged.bound hbound) (hfull hlt)

theorem charged_resize (n : Nat) (hcharge : f.charge ≤ v.used) :
    Charged v f (f.resize v n).1 (f.resize v n).2 := by
  set kept := f.pages.retain fun index _ => index < pageCount n with hkept
  have hle : kept.size ≤ f.pages.size := f.pages.size_retain_le _
  have hsize : (f.resize v n).2.pages.size = kept.size := by
    have := kept.size_alter (n / pageSize) (Option.map (·.zeroFrom (n % pageSize)))
    have htoList : ∀ o : Option Page,
        (o.map (·.zeroFrom (n % pageSize))).toList.length = o.toList.length := by
      rintro (_ | _) <;> rfl
    rw [htoList] at this
    exact Nat.add_right_cancel this
  cases hatt : f.attached with
  | false =>
    refine ⟨?_, rfl, ?_, ?_⟩ <;> simp [SparseFile.resize, SparseFile.charge, hatt]
  | true =>
    have hused : (f.resize v n).1 = { v with used := v.used - (f.pages.size - kept.size) } := by
      simp [SparseFile.resize, hatt, hkept]
    simp only [SparseFile.charge, hatt, if_true] at hcharge
    refine ⟨by rw [hused], rfl, ?_, ?_⟩
    · rw [hused, SparseFile.charge, SparseFile.charge, hsize]
      simp only [SparseFile.resize, hatt, if_true]
      omega
    · rw [hused]
      simp only
      omega

end Snare.Sparse
