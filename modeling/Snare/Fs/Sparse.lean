import Snare.Host
import Snare.Lib.SortedMap

/-!
# Sparse files on a volume

`SparseFile` and `Volume` of `fs_sim.rs`, for files that are never mapped and memory that never runs
out: a file's bytes stand in pages allocated on the first write to them, each charged to the volume
the file is attached to, and what no page holds reads as zero.

A function that changes the volume takes it and returns it. `get_mut(..).unwrap()` in the copy loop
of `write` is an `Option`: `none` is the panic.
-/

namespace Snare.Sparse

def pageSize : Nat := 4096

/-- A page, always `pageSize` bytes. -/
structure Page where
  bytes : List UInt8
  length_eq : bytes.length = pageSize

def Page.zero : Page := ⟨List.replicate pageSize 0, by simp⟩

/-- `page[within..within + chunk.len()].copy_from_slice(chunk)`. -/
def Page.copyFrom (p : Page) (within : Nat) (chunk : List UInt8) : Page where
  bytes := p.bytes.mapIdx fun i b => if within ≤ i then chunk.getD (i - within) b else b
  length_eq := by simpa using p.length_eq

/-- `page[within..].fill(0)`. -/
def Page.zeroFrom (p : Page) (within : Nat) : Page where
  bytes := p.bytes.mapIdx fun i b => if within ≤ i then 0 else b
  length_eq := by simpa using p.length_eq

structure Volume where
  capacity : Nat
  used : Nat
  files : Nat

def Volume.reserve (v : Volume) : Option Volume :=
  if v.used < v.capacity then some { v with used := v.used + 1 } else none

structure SparseFile where
  pages : SortedMap Nat Page
  length : Nat
  /-- Whether the file's pages are charged to the volume. -/
  attached : Bool

/-- The pages of a declared file's bytes, from page `index` on; the last one is filled up with
zeros. -/
def declaredPages (bytes : List UInt8) (index : Nat) : SortedMap Nat Page :=
  if bytes.isEmpty then .empty
  else (declaredPages (bytes.drop pageSize) (index + 1)).insert index
    (Page.zero.copyFrom 0 (bytes.take pageSize))
termination_by bytes.length
decreasing_by
  simp_all only [List.isEmpty_iff, List.length_drop]
  have := List.length_pos_iff.mpr ‹_›
  simp only [pageSize]
  omega

def SparseFile.new (bytes : List UInt8) : SparseFile where
  pages := declaredPages bytes 0
  length := bytes.length
  attached := false

/-- Charges the file's pages to the volume; `none` when the declared files exceed it. -/
def SparseFile.attach (v : Volume) (f : SparseFile) : Option (Volume × SparseFile) :=
  if v.used + f.pages.size ≤ v.capacity then
    some ({ v with used := v.used + f.pages.size, files := v.files + 1 },
      { f with attached := true })
  else none

def pageCount (length : Nat) : Nat := (length + pageSize - 1) / pageSize

/-- Cuts or grows the file: pages past the new length go, and the rest of the last page is zeroed.
-/
def SparseFile.resize (v : Volume) (f : SparseFile) (length : Nat) : Volume × SparseFile :=
  let kept := f.pages.retain fun index _ => index < pageCount length
  let pages := kept.alter (length / pageSize) (Option.map (·.zeroFrom (length % pageSize)))
  (if f.attached then { v with used := v.used - (f.pages.size - kept.size) } else v,
    { f with pages, length })

def SparseFile.clear (v : Volume) (f : SparseFile) : Volume × SparseFile := f.resize v 0

/-- How much of `len` bytes at `start`, the first `done` of them served, lies in the page of the
next one. -/
def inPage (start len done : Nat) : Nat :=
  min (pageSize - (start + done) % pageSize) (len - done)

theorem inPage_pos (start : Nat) {len done : Nat} (h : done < len) : 0 < inPage start len done := by
  have := Nat.mod_lt (start + done) (show 0 < pageSize by decide)
  simp only [inPage]
  omega

/-- The copy loop of `read`, from the byte `read` on. -/
def SparseFile.readFrom (f : SparseFile) (start count read : Nat) : List UInt8 :=
  if read < count then
    let n := inPage start count read
    let chunk := match f.pages.get? ((start + read) / pageSize) with
      | some page => (page.bytes.drop ((start + read) % pageSize)).take n
      | none => List.replicate n 0
    chunk ++ f.readFrom start count (read + n)
  else []
termination_by count - read
decreasing_by
  have := inPage_pos start ‹read < count›
  omega

def SparseFile.read (f : SparseFile) (start len : Nat) : List UInt8 :=
  f.readFrom start (min len (f.length - start)) 0

def SparseFile.allocate (v : Volume) (f : SparseFile) (index : Nat) :
    Except Errno (Volume × SparseFile) :=
  if (f.pages.get? index).isSome then .ok (v, f)
  else
    let f' := { f with pages := f.pages.insert index Page.zero }
    if f.attached then
      match v.reserve with
      | some v' => .ok (v', f')
      | none => .error .ENOSPC
    else .ok (v, f')

/-- The allocation loop of `write`: the pages of `len` bytes at `start`, of which the first
`allocated` have theirs, until one cannot be had. An error only when no byte has a page. -/
def SparseFile.allocateFrom (v : Volume) (f : SparseFile) (start len allocated : Nat) :
    Volume × SparseFile × Except Errno Nat :=
  if allocated < len then
    match f.allocate v ((start + allocated) / pageSize) with
    | .error errno => (v, f, if allocated = 0 then .error errno else .ok allocated)
    | .ok (v', f') => f'.allocateFrom v' start len (allocated + inPage start len allocated)
  else (v, f, .ok allocated)
termination_by len - allocated
decreasing_by
  have := inPage_pos start ‹allocated < len›
  omega

/-- The copy loop of `write`, from the byte `written` on. -/
def SparseFile.copyFrom (f : SparseFile) (start : Nat) (bytes : List UInt8) (written : Nat) :
    Option SparseFile :=
  if written < bytes.length then
    let offset := start + written
    let count := inPage start bytes.length written
    match f.pages.get? (offset / pageSize) with
    | none => none
    | some page =>
      let page := page.copyFrom (offset % pageSize) ((bytes.drop written).take count)
      { f with pages := f.pages.insert (offset / pageSize) page }.copyFrom start bytes
        (written + count)
  else some f
termination_by bytes.length - written
decreasing_by
  have := inPage_pos start ‹written < bytes.length›
  omega

/-- Writes as many of the bytes as pages can be had for. -/
def SparseFile.write (v : Volume) (f : SparseFile) (start : Nat) (bytes : List UInt8) :
    Option (Volume × SparseFile × Except Errno Nat) :=
  if start + bytes.length > 2 ^ 63 - 1 then some (v, f, .error .EFBIG)
  else
    match f.allocateFrom v start bytes.length 0 with
    | (v, f, .error errno) => some (v, f, .error errno)
    | (v, f, .ok allocated) =>
      (f.copyFrom start (bytes.take allocated) 0).map fun f =>
        (v, { f with length := max f.length (start + allocated) }, .ok allocated)

def SparseFile.drop (v : Volume) (f : SparseFile) : Volume :=
  if f.attached then { v with used := v.used - f.pages.size, files := v.files - 1 } else v

/-! ## Files sharing a volume -/

/-- The live files by index, and the volume they are attached to. -/
structure Store where
  volume : Volume
  files : List (Option SparseFile)

def Store.new (capacity : Nat) : Store := ⟨⟨capacity, 0, 0⟩, []⟩

inductive Op where
  /-- Declares a file with the bytes, attached to the volume or not. -/
  | create (bytes : List UInt8) (attached : Bool)
  | write (file start : Nat) (bytes : List UInt8)
  | resize (file length : Nat)
  | clear (file : Nat)
  | read (file start len : Nat)
  | drop (file : Nat)

def Op.file : Op → Option Nat
  | .create _ _ => none
  | .write i _ _ | .resize i _ | .clear i | .read i _ _ | .drop i => some i

inductive Reply where
  | done
  | data (bytes : List UInt8)
  | wrote (count : Nat)
  | failed (errno : Errno)
  /-- There is no such file, or the declared file does not fit the volume. -/
  | refused
  | panicked

def Store.file (s : Store) (i : Nat) : Option SparseFile := (s.files[i]?).join

/-- One operation; a write of no bytes returns before it reaches the file, as every caller does. -/
def Store.apply (s : Store) : Op → Store × Reply
  | .create bytes attached =>
    let f := SparseFile.new bytes
    if attached then
      match f.attach s.volume with
      | some (volume, f) => (⟨volume, s.files ++ [some f]⟩, .done)
      | none => (s, .refused)
    else ({ s with files := s.files ++ [some f] }, .done)
  | .write i start bytes =>
    match s.file i with
    | none => (s, .refused)
    | some f =>
      if bytes.isEmpty then (s, .wrote 0)
      else
        match f.write s.volume start bytes with
        | none => (s, .panicked)
        | some (volume, f, .ok count) => (⟨volume, s.files.set i (some f)⟩, .wrote count)
        | some (volume, f, .error errno) => (⟨volume, s.files.set i (some f)⟩, .failed errno)
  | .resize i length =>
    match s.file i with
    | none => (s, .refused)
    | some f =>
      let (volume, f) := f.resize s.volume length
      (⟨volume, s.files.set i (some f)⟩, .done)
  | .clear i =>
    match s.file i with
    | none => (s, .refused)
    | some f =>
      let (volume, f) := f.clear s.volume
      (⟨volume, s.files.set i (some f)⟩, .done)
  | .read i start len =>
    match s.file i with
    | none => (s, .refused)
    | some f => (s, .data (f.read start len))
  | .drop i =>
    match s.file i with
    | none => (s, .refused)
    | some f => (⟨f.drop s.volume, s.files.set i none⟩, .done)

def Store.step (s : Store) (op : Op) : Store := (s.apply op).1

end Snare.Sparse
