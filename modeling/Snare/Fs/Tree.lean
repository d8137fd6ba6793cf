import Snare.Fs.Perm
import Snare.Lib.PathTree

/-!
# The virtual tree

`VirtualFs` keeps its nodes in one flat map by absolute path, and each node points at an inode that
holds the link count and the owner. This module has what the calls that change the tree share: the
paths, the map, and how a raw path is taken through the tree's symbolic links to the path it names.

Left out: contents, timestamps and locks of an inode, and the descriptors open on it. A glob is the
predicate it matches paths by.
-/

namespace Snare.Fs

/-! ## Paths -/

abbrev Byte := Fin 256

instance neZeroByte : NeZero 256 := ⟨by decide⟩

abbrev Name := List Byte

abbrev Path := List Name

def slash : Byte := 47
def dot : Name := [46]
def dotDot : Name := [46, 46]

variable (raw : List Byte)

def components : List Name := (raw.splitOn slash).filter (· ≠ [])

def startsWithSlash : Bool := raw.head? == some slash
def endsWithSlash : Bool := raw.getLast? == some slash

/-- Lexically normalizes an absolute path: `.` is dropped and `..` pops a component, stopping at the
root. -/
def normalize : Path :=
  (components raw).foldl (fun out component =>
    if component = dotDot then out.dropLast
    else if component = dot then out
    else out ++ [component]) []

def pathOf : Option Path :=
  if startsWithSlash raw then some (normalize raw) else none

variable (path : Path)

def pathBytes : List Byte :=
  if path = [] then [slash] else path.flatMap (slash :: ·)

def parentOf : Option Path := if path = [] then none else some path.dropLast

def ancestors : List Path := path.inits.dropLast.reverse

/-! ## The tree and its inodes -/

/-- One declared node of the tree, with the number of its inode. -/
inductive VNode where
  | file (inode : Nat)
  | dir (inode : Nat)
  | symlink (inode : Nat) (target : List Byte)
  deriving DecidableEq

namespace VNode

def inode : VNode → Nat
  | file i => i
  | dir i => i
  | symlink i _ => i

def kind : VNode → Kind
  | file _ => .file
  | dir _ => .directory
  | symlink _ _ => .symlink

def isDir (node : VNode) : Bool := node.kind == .directory

variable (i : Nat)

@[simp] theorem inode_dir : (dir i).inode = i := rfl

@[simp] theorem kind_dir : (dir i).kind = .directory := rfl

@[simp] theorem isDir_dir : (dir i).isDir = true := rfl

theorem isDir_iff {node : VNode} : node.isDir ↔ node = .dir node.inode := by
  cases node <;> simp [isDir, kind, inode]

end VNode

/-- An inode. A number no inode was made for has no links. -/
structure VInode where
  kind : Kind := .file
  links : Nat := 0
  owner : Owner := ⟨0, 0, 0⟩

namespace VInode

/-- A new inode: a directory starts with two links, anything else with one. -/
def new (kind : Kind) (owner : Owner) : VInode :=
  ⟨kind, if kind = .directory then 2 else 1, owner⟩

end VInode

structure VirtualFs where
  tree : SortedMap Path VNode := .empty
  inodes : Nat → VInode := fun _ => {}
  nextInode : Nat := 1
  ownedPrefixes : List Path := []
  passthrough : Path → Bool := fun _ => false
  deny : Path → Bool := fun _ => false

/-- Who makes a call and from where: the caller, the inode of a working directory in this file
system, and else the process's own working directory. -/
structure Env where
  caller : Credentials
  cwd : Option Nat
  processCwd : Except Errno (List Byte)

abbrev Reply := Option (Except Errno Nat)

def err (errno : Errno) : Reply := some (.error errno)

def ok (n : Nat) : Reply := some (.ok n)

/-! ## Checks

A call first makes its checks, each of which may end it with a reply, and then changes the tree. -/

abbrev Checks := Except Reply

def refuse (c : Prop) [Decidable c] (reply : Reply) : Checks Unit :=
  if c then .error reply else .ok ()

def orErr {α : Type} : Except Errno α → Checks α
  | .error errno => .error (err errno)
  | .ok a => .ok a

theorem bind_eq_ok {α β : Type} {x : Checks α} {f : α → Checks β} {b : β} :
    x >>= f = .ok b ↔ ∃ a, x = .ok a ∧ f a = .ok b := by
  cases x with
  | error reply => exact ⟨nofun, fun ⟨_, h, _⟩ => nomatch h⟩
  | ok a => exact ⟨fun h => ⟨a, rfl, h⟩, fun ⟨_, h, hf⟩ => by cases h; exact hf⟩

theorem refuse_eq_ok {c : Prop} [Decidable c] {reply : Reply} {u : Unit} :
    refuse c reply = .ok u ↔ ¬ c := by
  unfold refuse
  split <;> simp_all

theorem orErr_eq_ok {α : Type} {x : Except Errno α} {a : α} : orErr x = .ok a ↔ x = .ok a := by
  cases x with
  | error errno => exact ⟨nofun, nofun⟩
  | ok a' => exact ⟨fun h => by cases h; rfl, fun h => by cases h; rfl⟩

namespace VirtualFs

variable (fs : VirtualFs) (path : Path)

def owned : Bool := fs.ownedPrefixes.any fun pre => decide (pre <+: path)

def contains : Bool := (fs.tree.get? path).isSome

def claims : Bool :=
  fs.owned path || fs.contains path || (parentOf path).any fs.contains

def ownerOf (inode : Nat) : Owner := (fs.inodes inode).owner

def parentNode : Option VNode := (parentOf path).bind fs.tree.get?

def parent : Except Errno Nat :=
  if (ancestors path).any fun above => (fs.tree.get? above).any (·.kind == .file) then
    .error .ENOTDIR
  else
    match fs.parentNode path with
    | some (.dir inode) => .ok inode
    | _ => .error .ENOENT

/-- Whether the caller may take `victim`, at `path`, out of its directory. -/
def mayRemove (caller : Credentials) (path : Path) (victim : Nat) : Except Errno Unit :=
  match fs.parentNode path with
  | some (.dir parent) => caller.mayRemove (fs.ownerOf parent) (fs.ownerOf victim)
  | _ => .ok ()

variable (host : Host)

/-- Whether the caller may put an entry where `mayRename` finds none. -/
def mayReplace (caller : Credentials) (to_ : Path) : Option VNode → Except Errno Unit
  | some target => do
    fs.mayRemove caller to_ target.inode
    if host = .macos ∧ target.isDir then
      caller.check (fs.ownerOf target.inode) .directory wantWrite
    else .ok ()
  | none =>
    match fs.parentNode to_ with
    | some (.dir parent) => caller.check (fs.ownerOf parent) .directory (wantWrite ||| wantExec)
    | _ => .ok ()

/-- Whether the caller may rename `source`, at `from_`, to `to_`, replacing `target`. -/
def mayRename (caller : Credentials) (from_ to_ : Path) (source : VNode)
    (target : Option VNode) : Except Errno Unit := do
  fs.mayRemove caller from_ source.inode
  fs.mayReplace host caller to_ target
  if source.isDir ∧ parentOf from_ ≠ parentOf to_ then
    caller.check (fs.ownerOf source.inode) .directory wantWrite
  else .ok ()

/-! ## From raw bytes to a path -/

/-- The path of the working directory, if it is in this file system. -/
def cwdBytes (env : Env) : Option (Except Errno (List Byte)) :=
  env.cwd.map fun inode =>
    match fs.tree.entries.find? fun e => e.2.inode = inode with
    | some (path, _) => .ok (pathBytes path)
    | none => .error .ENOENT

def absolute (env : Env) : Option (List Byte) → Except Errno (Option (List Byte))
  | none => .ok none
  | some raw =>
    if startsWithSlash raw then .ok (some raw)
    else if raw = [] then .error .ENOENT
    else do
      let cwd ← (fs.cwdBytes env).getD env.processCwd
      return some (cwd ++ slash :: raw)

def linkLimit : Host → Nat
  | .linux => 40
  | .macos => 32

/-- Whether the walk may look `component` up where it stands. -/
def lookIn (caller : Credentials) (strictDots : Bool) (current : Path) (component : Name) :
    Except Errno Unit :=
  match fs.tree.get? current with
  | some (.file _) | some (.symlink _ _) =>
    if strictDots || !(component = [] || component = dot || component = dotDot) then .error .ENOTDIR
    else .ok ()
  | none => if current ≠ [] ∧ fs.claims current then .error .ENOENT else .ok ()
  | some (.dir inode) =>
    if component ≠ [] then caller.search (fs.ownerOf inode) else .ok ()

/-- The components a link's target puts before those still pending. -/
def expanded (target : List Byte) (pending : List Name) : List Name :=
  components target ++ (if endsWithSlash target && pending.isEmpty then [[]] else []) ++ pending

/-- The loop of `traversal` up to the next link it follows; `follow` is the loop from there. -/
def walkTo (caller : Credentials) (strictDots followFinal : Bool) (links : Nat)
    (follow : Path → List Name → Except Errno (Nat × Path)) (current : Path) :
    List Name → Except Errno (Nat × Path)
  | [] => .ok (links, current)
  | component :: pending =>
    match fs.lookIn caller strictDots current component with
    | .error errno => .error errno
    | .ok () =>
      if component = [] ∨ component = dot then
        walkTo caller strictDots followFinal links follow current pending
      else if component = dotDot then
        walkTo caller strictDots followFinal links follow current.dropLast pending
      else
        match fs.tree.get? (current ++ [component]) with
        | some (.symlink _ target) =>
          if followFinal || !pending.isEmpty then
            if target = [] then .error .ENOENT
            else follow (if startsWithSlash target then [] else current) (expanded target pending)
          else walkTo caller strictDots followFinal links follow (current ++ [component]) pending
        | _ => walkTo caller strictDots followFinal links follow (current ++ [component]) pending

/-- The loop of `traversal`: where the pending components lead, and through how many links, with
`links` followed and `left` more allowed. -/
def walk (caller : Credentials) (strictDots followFinal : Bool) :
    (left links : Nat) → Path → List Name → Except Errno (Nat × Path)
  | 0, links => fs.walkTo caller strictDots followFinal links fun _ _ => .error .ELOOP
  | left + 1, links =>
    fs.walkTo caller strictDots followFinal links
      (walk caller strictDots followFinal left (links + 1))

/-- Resolves `raw` through this file system's symbolic links to the path it names. -/
def traversal (caller : Credentials) (raw : List Byte) (path : Path)
    (strictDots followFinal : Bool) : Except Errno Path :=
  let rawPath := (components raw).filter (· ≠ dot)
  if !fs.claims path && !fs.tree.entries.any
    (fun e => e.2.kind == .symlink && decide (e.1 <+: rawPath))
  then .ok path
  else
    let pending := components raw
      ++ if endsWithSlash raw && (followFinal || host == .macos) then [[]] else []
    match fs.walk caller strictDots followFinal (linkLimit host) 0 [] pending with
    | .error errno => .error errno
    | .ok (links, current) =>
      if 0 < links ∧ (fs.passthrough current ∨ !fs.owned current ∧ !fs.contains current) then
        .error .EXDEV
      else if 0 < links ∧ fs.deny current then .error .EACCES
      else .ok current

end VirtualFs

end Snare.Fs
