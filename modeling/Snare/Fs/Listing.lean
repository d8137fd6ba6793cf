import Snare.Fs.Linked

/-!
# Directory listings

A descriptor of a directory has a snapshot of it and a cursor. `getdents64` packs the entries from
the cursor on into a buffer, and stops at one that does not fit the buffer or a record's name field.

* **`pack_spec`**: what one call packs is chained in the buffer, and is what the cursor moves over.
* **`listing_exact`**: a listing is complete exactly if every name fits the name field;
* **`long_name_unlisted`**: a name a program made, that no call ever lists.
-/

namespace Snare.Fs

open List

structure DirEntry where
  name : Name
  ino : Nat
  dtype : Kind
  deriving DecidableEq

/-- Lists `.` and `..`, then direct children in path order. `inoOf` numbers a directory that is not
in the tree. -/
def VirtualFs.snapshot (fs : VirtualFs) (inoOf : Path → Nat) (dir : Path) : List DirEntry :=
  let number := fun path => (fs.tree.get? path).map VNode.inode
  let above := ((parentOf dir).bind number).or (number dir)
  ⟨dot, (number dir).getD (inoOf dir), .directory⟩
    :: ⟨dotDot, above.getD (inoOf dir), .directory⟩
    :: fs.tree.entries.filterMap fun (path, node) =>
      if parentOf path = some dir then
        path.getLast?.map fun name => ⟨name, node.inode, node.kind⟩
      else none

def nameSize : Host → Nat
  | .linux => 256
  | .macos => 1024

def headerLen : Host → Nat
  | .linux => 19
  | .macos => 21

def alignment : Host → Nat
  | .linux => 8
  | .macos => 4

def recordLen (host : Host) (e : DirEntry) : Nat :=
  (headerLen host + e.name.length + alignment host) / alignment host * alignment host

structure Record where
  offset : Nat
  reclen : Nat
  /-- `d_off`, or `d_seekoff`. -/
  off : Nat
  entry : DirEntry

structure DirStream where
  entries : List DirEntry
  cursor : Nat := 0

/-- The loop of `pack_directory`, over the entries from the cursor on. -/
def pack (host : Host) (null : Bool) (len : Nat) :
    Nat → Nat → List DirEntry → List Record × Except Errno Nat
  | _, written, [] => ([], .ok written)
  | cursor, written, e :: rest =>
    let stop := fun errno => ([], if written = 0 then .error errno else .ok written)
    if nameSize host ≤ e.name.length then stop .ENAMETOOLONG
    else if len - written < recordLen host e then stop .EINVAL
    else if null then stop .EFAULT
    else
      let (records, result) := pack host null len (cursor + 1) (written + recordLen host e) rest
      (⟨written, recordLen host e, cursor + 1, e⟩ :: records, result)

namespace DirStream

variable (s : DirStream) (host : Host)

def packDirectory (null : Bool) (len : Nat) : DirStream × List Record × Except Errno Nat :=
  let out := pack host null len s.cursor 0 (s.entries.drop s.cursor)
  ({ s with cursor := s.cursor + out.1.length }, out)

def calls : DirStream → List Nat → List (List Record × Except Errno Nat)
  | _, [] => []
  | s, len :: lens =>
    let (s, out) := s.packDirectory host false len
    out :: calls s lens

def Roomy : DirStream → List Nat → Prop
  | _, [] => True
  | s, len :: lens => (∀ e ∈ s.entries[s.cursor]?, recordLen host e ≤ len)
    ∧ Roomy (s.packDirectory host false len).1 lens

end DirStream

/-- The records follow one another by `d_reclen`. -/
def Chained : Nat → List Record → Nat → Prop
  | start, [], stop => start = stop
  | start, r :: records, stop => r.offset = start ∧ Chained (start + r.reclen) records stop

def listed (outs : List (List Record × Except Errno Nat)) : List DirEntry :=
  outs.flatMap fun out => out.1.map Record.entry

/-- Calls list the entries in order, each once, inside their buffers, and come to an end. -/
structure Lists (entries : List DirEntry) (lens : List Nat)
    (outs : List (List Record × Except Errno Nat)) : Prop where
  packed : Forall₂ (fun len out => ∃ n ≤ len, out.2 = .ok n ∧ Chained 0 out.1 n) lens outs
  inOrder : listed outs <+: entries
  ends : entries.length < lens.length → listed outs = entries ∧ ([], .ok 0) ∈ outs

variable (host : Host) {len : Nat}

theorem pack_spec (cursor : Nat) {written : Nat} (rest : List DirEntry) (hle : written ≤ len) :
    let out := pack host false len cursor written rest
    ∃ stop ≤ len, Chained written out.1 stop ∧ out.1.map Record.entry <+: rest
      ∧ (∀ r ∈ out.1, r.entry.name.length < nameSize host) ∧ (0 < written → out.2 = .ok stop) := by
  induction rest generalizing cursor written with
  | nil => exact ⟨written, hle, rfl, nil_prefix, nofun, fun _ => rfl⟩
  | cons e rest ih =>
    have hstop : ∀ errno : Errno, 0 < written →
        (if written = 0 then .error errno else .ok written : Except Errno Nat) = .ok written :=
      fun errno h => if_neg h.ne'
    unfold pack
    dsimp only
    split
    · exact ⟨written, hle, rfl, nil_prefix, nofun, hstop _⟩
    split
    · exact ⟨written, hle, rfl, nil_prefix, nofun, hstop _⟩
    · rename_i hname hroom
      obtain ⟨stop, hstop, hchain, hpre, hnames, hok⟩ :=
        ih (cursor + 1) (Nat.add_le_of_le_sub' hle (Nat.le_of_not_lt hroom))
      refine ⟨stop, hstop, ⟨rfl, hchain⟩, cons_prefix_cons.mpr ⟨rfl, hpre⟩, ?_, ?_⟩
      · rintro r (_ | ⟨_, hr⟩)
        · exact Nat.lt_of_not_le hname
        · exact hnames r hr
      · exact fun h => hok (Nat.add_pos_left h _)

variable {host}

theorem call_spec (cursor : Nat) {rest : List DirEntry}
    (hfit : ∀ e ∈ rest, e.name.length < nameSize host)
    (hroom : ∀ e ∈ rest.head?, recordLen host e ≤ len) :
    let out := pack host false len cursor 0 rest
    (∃ n ≤ len, out.2 = .ok n ∧ Chained 0 out.1 n) ∧ (rest = [] → out = ([], .ok 0))
      ∧ (rest ≠ [] → out.1 ≠ []) := by
  cases rest with
  | nil => exact ⟨⟨0, Nat.zero_le _, rfl, rfl⟩, fun _ => rfl, absurd rfl⟩
  | cons e rest =>
    have hname := hfit e mem_cons_self
    have hlen : recordLen host e ≤ len := hroom e rfl
    have hpos : 0 < recordLen host e := by cases host <;> simp [recordLen, alignment]
    obtain ⟨stop, hstop, hchain, -, -, hok⟩ := pack_spec host (cursor + 1) rest hlen
    unfold pack
    dsimp only
    rw [if_neg (by omega), if_neg (by omega), if_neg (by decide), Nat.zero_add]
    refine ⟨⟨stop, hstop, hok hpos, rfl, ?_⟩, nofun, nofun⟩
    rwa [Nat.zero_add]

theorem lists_of_fit {s : DirStream} {lens : List Nat}
    (hfit : ∀ e ∈ s.entries, e.name.length < nameSize host) (hroomy : s.Roomy host lens) :
    Lists (s.entries.drop s.cursor) lens (s.calls host lens) := by
  induction lens generalizing s with
  | nil => exact ⟨.nil, nil_prefix, nofun⟩
  | cons len lens ih =>
    obtain ⟨hroom, hroomy⟩ := hroomy
    have hrest := ih (s := (s.packDirectory host false len).1) hfit hroomy
    have hcall := call_spec s.cursor (fun e he => hfit e (mem_of_mem_drop he))
      (by simpa using hroom)
    obtain ⟨-, -, -, hpre, -⟩ := pack_spec host s.cursor (s.entries.drop s.cursor) (Nat.zero_le len)
    rw [prefix_iff_eq_append, length_map, drop_drop] at hpre
    simp only [DirStream.packDirectory] at hrest
    simp only [DirStream.calls, DirStream.packDirectory]
    generalize pack host false len s.cursor 0 (s.entries.drop s.cursor) = out at *
    obtain ⟨hpacked, hnil, hcons⟩ := hcall
    refine ⟨.cons hpacked hrest.packed, ?_, fun hlong => ?_⟩
    · rw [← hpre]
      exact (prefix_append_right_inj _).mpr hrest.inOrder
    · by_cases hempty : s.entries.drop s.cursor = []
      · obtain ⟨hnone, hdrop⟩ := append_eq_nil_iff.mp (hpre.trans hempty)
        rw [hdrop] at hrest
        refine ⟨?_, hnil hempty ▸ mem_cons_self⟩
        rw [hempty]
        exact append_eq_nil_iff.mpr ⟨hnone, prefix_nil.mp hrest.inOrder⟩
      · -- the cursor moves on, so what is left takes one call less
        have hpos := length_pos_iff.mpr (hcons hempty)
        have hlength := congrArg length hpre
        simp only [length_append, length_map, length_cons] at hlength hlong
        obtain ⟨hall, hend⟩ := hrest.ends (by omega)
        refine ⟨?_, mem_cons_of_mem _ hend⟩
        rw [← hpre, ← hall]
        rfl

theorem fit_of_listed {s : DirStream} {lens : List Nat} {e : DirEntry}
    (he : e ∈ listed (s.calls host lens)) : e.name.length < nameSize host := by
  induction lens generalizing s with
  | nil => exact nomatch he
  | cons len lens ih =>
    rcases mem_append.mp he with he | he
    · obtain ⟨r, hr, rfl⟩ := mem_map.mp he
      obtain ⟨-, -, -, -, hnames, -⟩ :=
        pack_spec host s.cursor (s.entries.drop s.cursor) (Nat.zero_le len)
      exact hnames r hr
    · exact ih he

theorem roomy_replicate {s : DirStream}
    (hroom : ∀ e ∈ s.entries, recordLen host e ≤ len) (n : Nat) :
    s.Roomy host (replicate n len) := by
  induction n generalizing s with
  | zero => trivial
  | succ n ih => exact ⟨fun e he => hroom e (mem_of_getElem? he), ih hroom⟩

/-- **A listing is complete** for every sequence of buffers with room for the next record, exactly
if every name of the directory is shorter than the name field of a record. -/
theorem listing_exact (host : Host) (fs : VirtualFs) (inoOf : Path → Nat) (dir : Path) :
    (∀ lens, DirStream.Roomy host ⟨fs.snapshot inoOf dir, 0⟩ lens →
        Lists (fs.snapshot inoOf dir) lens (DirStream.calls host ⟨fs.snapshot inoOf dir, 0⟩ lens))
      ↔ ∀ e ∈ fs.snapshot inoOf dir, e.name.length < nameSize host := by
  generalize fs.snapshot inoOf dir = entries
  refine ⟨fun h e he => ?_, fun hfit lens hroomy => lists_of_fit hfit hroomy⟩
  -- enough calls, each with room for every record
  have hroom : ∀ e ∈ entries, recordLen host e ≤ (entries.map (recordLen host)).sum := fun e he =>
    single_le_sum (fun _ _ => Nat.zero_le _) _ (mem_map_of_mem he)
  have hlists := h _ (roomy_replicate hroom (entries.length + 1))
  obtain ⟨hall, -⟩ := hlists.ends (by simp)
  exact fit_of_listed (by rwa [hall])

def longNamed : VirtualFs × Reply :=
  (VirtualFs.sample.getD {}).mkdir .linux ⟨VirtualFs.sampleCaller, none, .ok [slash]⟩
    (some ([slash, 98, slash] ++ replicate 256 97)) 0o755

/-- The directory is made, and every call at its entry fails, however large the buffer. -/
theorem long_name_unlisted : longNamed.2 = ok 0 ∧ ∀ len,
    (DirStream.packDirectory ⟨longNamed.1.snapshot (fun _ => 0) [[98]], 2⟩ .linux false len).2
      = ([], .error .ENAMETOOLONG) := by
  refine ⟨by decide +kernel, fun len => ?_⟩
  have hsnapshot : (longNamed.1.snapshot (fun _ => 0) [[98]]).drop 2
      = [⟨replicate 256 97, 9, .directory⟩] := by decide +kernel
  have hlong : nameSize .linux ≤ (replicate 256 (97 : Byte)).length := by
    rw [length_replicate, nameSize]
  simp only [DirStream.packDirectory, hsnapshot]
  unfold pack
  rw [if_pos hlong]
  rfl

end Snare.Fs
