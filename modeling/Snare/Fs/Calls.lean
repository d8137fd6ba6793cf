import Snare.Fs.Tree

/-!
# The calls that change the tree

`open` with `O_CREAT`, `mkdir`, `rmdir`, `unlink`, `symlink`, `link` and `rename`, each as its
checks and the change it makes once they pass, and the builder a file system starts from. A call
holds the tree's lock throughout.
-/

namespace Snare.Fs

namespace VirtualFs

variable (fs : VirtualFs)

/-! ## Links and inodes -/

variable (inode : Nat)

def setLinks (f : Nat → Nat) : VirtualFs :=
  { fs with
    inodes := Function.update fs.inodes inode
      { fs.inodes inode with links := f (fs.inodes inode).links } }

def addLink : VirtualFs := fs.setLinks inode (· + 1)

def dropLink : VirtualFs := fs.setLinks inode (· - 1)

def takeNumber : VirtualFs := { fs with nextInode := fs.nextInode + 2 }

variable (path : Path) (node : VNode)

/-- Puts a new node with an inode of its own, the number just taken, into the tree. -/
def place (owner : Owner) : VirtualFs :=
  { fs with
    tree := fs.tree.insert path node
    inodes := Function.update fs.inodes node.inode (.new node.kind owner)
    nextInode := fs.nextInode + 2 }

/-! ## Checks shared by the calls -/

variable (env : Env)

/-- The raw bytes of a path made absolute; a null pointer passes on. -/
def rooted (raw : Option (List Byte)) : Checks (List Byte) := do
  match ← orErr (fs.absolute env raw) with
  | none => .error none
  | some raw => return raw

variable (raw : List Byte)

def spell : Checks Path :=
  match pathOf raw with
  | none => .error none
  | some path => .ok path

def spelled (raw : Option (List Byte)) : Checks (List Byte × Path) := do
  let raw ← fs.rooted env raw
  let path ← spell raw
  return (raw, path)

/-- As `spelled`, for a call that is denied, passes on or is claimed by this file system. -/
def claimed (raw : Option (List Byte)) : Checks (List Byte × Path) := do
  let (raw, path) ← fs.spelled env raw
  refuse (fs.deny path) (err .EACCES)
  refuse (fs.passthrough path) none
  refuse (!fs.claims path) none
  return (raw, path)

def hasBelow : Bool :=
  fs.tree.keys.any fun entry => entry ≠ path && decide (path <+: entry)

/-! ## `rmdir` and `unlink` -/

variable (host : Host)

def rmdirChecks (env : Env) (raw : Option (List Byte)) : Checks (Path × Nat) := do
  let (raw, path) ← fs.claimed env raw
  let path ← orErr (fs.traversal host env.caller raw path true false)
  refuse ((components raw).getLast? = some dot) (err .EINVAL)
  refuse (path = []) (err .EBUSY)
  match fs.tree.get? path with
  | none => .error (err .ENOENT)
  | some node =>
    orErr (fs.mayRemove env.caller path node.inode)
    match node with
    | .file _ | .symlink _ _ => .error (err .ENOTDIR)
    | .dir inode =>
      refuse (fs.hasBelow path) (err .ENOTEMPTY)
      return (path, inode)

def removeDir (path : Path) (inode : Nat) : VirtualFs :=
  let fs : VirtualFs := { fs with tree := fs.tree.erase path }
  if host = .linux then fs.setLinks inode fun _ => 0 else fs

def dropParentLink : VirtualFs :=
  match fs.parentNode path with
  | some (.dir parent) => fs.dropLink parent
  | _ => fs

def rmdir (env : Env) (raw : Option (List Byte)) : VirtualFs × Reply :=
  match fs.rmdirChecks host env raw with
  | .error reply => (fs, reply)
  | .ok (path, inode) => ((fs.removeDir host path inode).dropParentLink path, ok 0)

def unlinkChecks (env : Env) (raw : Option (List Byte)) : Checks (Path × VNode) := do
  let (raw, path) ← fs.claimed env raw
  let path ← orErr (fs.traversal host env.caller raw path true false)
  match fs.tree.get? path with
  | none =>
    match fs.parent path with
    | .error errno => .error (err errno)
    | .ok _ => .error (err .ENOENT)
  | some node =>
    refuse (host = .macos ∧ node.isDir) (err .EPERM)
    refuse (endsWithSlash raw ∧ !node.isDir) (err .ENOTDIR)
    orErr (fs.mayRemove env.caller path node.inode)
    refuse node.isDir (err .EISDIR)
    return (path, node)

def removeEntry : VirtualFs :=
  { fs with tree := fs.tree.erase path }.dropLink node.inode

def unlink (env : Env) (raw : Option (List Byte)) : VirtualFs × Reply :=
  match fs.unlinkChecks host env raw with
  | .error reply => (fs, reply)
  | .ok (path, node) => (fs.removeEntry path node, ok 0)

/-! ## `mkdir`, `symlink` and `link` -/

/-- The bytes without the slashes they end in, but for a root's own. -/
def trimSlashes : List Byte :=
  match raw.reverse.dropWhile (· = slash) with
  | [] => raw.take 1
  | rest => rest.reverse

def mkdirChecks (env : Env) (raw : Option (List Byte)) : Checks (Path × Nat) := do
  let (raw, path) ← fs.claimed env raw
  let path ← orErr (fs.traversal host env.caller (trimSlashes raw) path true
    (host == .macos && endsWithSlash raw))
  refuse (host = .macos ∧ endsWithSlash raw ∧ (fs.tree.get? path).any (·.kind == .file))
    (err .ENOTDIR)
  refuse (fs.contains path) (err .EEXIST)
  let parent ← orErr (fs.parent path)
  orErr (env.caller.check (fs.ownerOf parent) .directory wantWrite)
  return (path, parent)

def mkdir (env : Env) (raw : Option (List Byte)) (mode : Mode) : VirtualFs × Reply :=
  match fs.mkdirChecks host env raw with
  | .error reply => (fs, reply)
  | .ok (path, parent) =>
    let owner := env.caller.create host (fs.ownerOf parent) mode .directory
    ((fs.place path (.dir fs.nextInode) owner).addLink parent, ok 0)

def symlinkChecks (env : Env) (target link : Option (List Byte)) :
    Checks (Path × Nat × List Byte) := do
  let (absolute, path) ← fs.spelled env link
  refuse (fs.passthrough path) none
  refuse (fs.deny path) (err .EACCES)
  refuse (!fs.claims path) none
  match target with
  | none => .error (err .EFAULT)
  | some target =>
    refuse (target = []) (err .ENOENT)
    let path ← orErr (fs.traversal host env.caller absolute path true false)
    refuse (fs.contains path) (err .EEXIST)
    let parent ← orErr (fs.parent path)
    refuse (endsWithSlash absolute) (err .ENOENT)
    orErr (env.caller.check (fs.ownerOf parent) .directory wantWrite)
    return (path, parent, target)

def symlink (env : Env) (target link : Option (List Byte)) : VirtualFs × Reply :=
  match fs.symlinkChecks host env target link with
  | .error reply => (fs, reply)
  | .ok (path, parent, target) =>
    let owner := env.caller.create host (fs.ownerOf parent) 0o777 .symlink
    (fs.place path (.symlink fs.nextInode target) owner, ok 0)

/-- What a `link` to a path with a trailing slash fails with. -/
def slashedTarget : Option VNode → Errno
  | some (.dir _) => .EEXIST
  | some _ => if host = .macos then .ENOTDIR else .EEXIST
  | none => .ENOENT

def linkChecks (env : Env) (from_ to_ : Option (List Byte)) : Checks (VNode × Path) := do
  let from_ ← fs.rooted env from_
  let to_ ← fs.rooted env to_
  let source ← spell from_
  let target ← spell to_
  refuse (fs.deny source ∨ fs.deny target) (err .EACCES)
  let sourceClaimed := fs.claims source && !fs.passthrough source
  let targetClaimed := fs.claims target && !fs.passthrough target
  refuse (!sourceClaimed ∧ !targetClaimed) none
  refuse (!sourceClaimed) (err .EXDEV)
  let source ← orErr (fs.traversal host env.caller from_ source true false)
  let target ← orErr (fs.traversal host env.caller to_ target true false)
  match fs.tree.get? source with
  | none => .error (err .ENOENT)
  | some node =>
    refuse node.isDir (err .EPERM)
    refuse (endsWithSlash from_) (err .ENOTDIR)
    refuse (!targetClaimed) (err .EXDEV)
    refuse (endsWithSlash to_) (err (slashedTarget host (fs.tree.get? target)))
    refuse (fs.contains target) (err .EEXIST)
    let parent ← orErr (fs.parent target)
    orErr (env.caller.check (fs.ownerOf parent) .directory wantWrite)
    return (node, target)

def addEntry (path : Path) : VirtualFs :=
  { fs.addLink node.inode with tree := fs.tree.insert path node }

def link (env : Env) (from_ to_ : Option (List Byte)) : VirtualFs × Reply :=
  match fs.linkChecks host env from_ to_ with
  | .error reply => (fs, reply)
  | .ok (node, target) => (fs.addEntry node target, ok 0)

/-! ## `rename` -/

/-- A raw path whose last component is `.` or `..`. -/
def endsInDots : Bool :=
  (components raw).getLast? = some dot || (components raw).getLast? = some dotDot

/-- A file or a symbolic link is not renamed to a path with a trailing slash, but onto a directory
on macOS. -/
def slashedRename (toRaw : List Byte) (source : VNode) (target : Option VNode) :
    Checks Unit :=
  if endsWithSlash toRaw ∧ !source.isDir then
    match host, target with
    | .linux, _ => .error (err .ENOTDIR)
    | .macos, none => .error (err .ENOENT)
    | .macos, some target => refuse (!target.isDir) (err .ENOTDIR)
  else .ok ()

/-- Whether the kinds of the node renamed and of the one it replaces agree. -/
def replaceable (to_ : Path) (source : VNode) : Option VNode → Checks Unit
  | none => .ok ()
  | some target => do
    refuse (!source.isDir ∧ target.isDir) (err .EISDIR)
    refuse (source.isDir ∧ !target.isDir) (err .ENOTDIR)
    refuse (source.isDir ∧ fs.hasBelow to_) (err .ENOTEMPTY)

/-- What a rename that goes through moves, and what it meets. -/
structure Rename where
  from_ : Path
  to_ : Path
  source : VNode
  target : Option VNode
  /-- The directory of `to_`. -/
  targetParent : Nat

def renameChecks (env : Env) (fromRaw toRaw : Option (List Byte)) : Checks Rename := do
  let fromRaw ← fs.rooted env fromRaw
  let toRaw ← fs.rooted env toRaw
  let from_ ← spell fromRaw
  let to_ ← spell toRaw
  refuse (fs.deny from_ ∨ fs.deny to_) (err .EACCES)
  refuse (fs.passthrough from_ ∨ fs.passthrough to_) none
  let targetClaimed := fs.claims to_
  refuse (!fs.claims from_ ∧ !targetClaimed) none
  refuse (!fs.claims from_) (err .EXDEV)
  let from_ ← orErr (fs.traversal host env.caller fromRaw from_ true false)
  let to_ ← orErr (fs.traversal host env.caller toRaw to_ true false)
  refuse (endsInDots fromRaw ∨ endsInDots toRaw) (err (if host = .macos then .EINVAL else .EBUSY))
  match fs.tree.get? from_ with
  | none =>
    match fs.parent from_ with
    | .error errno => .error (err errno)
    | .ok _ => .error (err .ENOENT)
  | some source =>
    refuse (endsWithSlash fromRaw ∧ !source.isDir) (err .ENOTDIR)
    refuse (from_ = to_) (if endsWithSlash toRaw ∧ !source.isDir then err .ENOTDIR else ok 0)
    refuse (!targetClaimed) (err .EXDEV)
    let targetParent ← orErr (fs.parent to_)
    let target := fs.tree.get? to_
    slashedRename host toRaw source target
    refuse (target.any fun target => target.inode = source.inode) (ok 0)
    refuse (source.isDir ∧ from_ <+: to_) (err .EINVAL)
    orErr (fs.mayRename host env.caller from_ to_ source target)
    fs.replaceable to_ source target
    return { from_, to_, source, target, targetParent }

def removeTarget (to_ : Path) : Option VNode → VirtualFs
  | none => fs
  | some target =>
    if target.isDir then fs.removeDir host to_ target.inode else fs.removeEntry to_ target

/-- The paths that move: the renamed one, and those below a directory. -/
def moving (from_ : Path) (directory : Bool) : List Path :=
  fs.tree.keys.filter fun path => path = from_ || (directory && decide (from_ <+: path))

def destination (from_ to_ path : Path) : Path :=
  if path = from_ then to_ else to_ ++ path.drop from_.length

def moveTo (from_ to_ : Path) (directory : Bool) : VirtualFs :=
  { fs with tree := fs.tree.relocate (fs.moving from_ directory) (destination from_ to_) }

def relink (r : Rename) : VirtualFs :=
  let fs := fs.dropParentLink r.from_
  if r.target.any (·.isDir) then fs else fs.addLink r.targetParent

def rename (env : Env) (fromRaw toRaw : Option (List Byte)) : VirtualFs × Reply :=
  match fs.renameChecks host env fromRaw toRaw with
  | .error reply => (fs, reply)
  | .ok r =>
    let fs := (fs.removeTarget host r.to_ r.target).moveTo r.from_ r.to_ r.source.isDir
    (if r.source.isDir then fs.relink r else fs, ok 0)

/-! ## `open` -/

structure OpenFlags where
  /-- The access mode, `O_ACCMODE`. -/
  access : Fin 4
  creat : Bool
  excl : Bool
  noFollow : Bool
  directory : Bool
  trunc : Bool
  /-- `O_PATH`, on Linux. -/
  path : Bool
  /-- `O_SYMLINK`, on macOS. -/
  symlink : Bool

def OpenFlags.writable (flags : OpenFlags) : Bool := flags.access = 1 || flags.access = 2

def OpenFlags.openAccess (flags : OpenFlags) (host : Host) : Want :=
  if host = .linux ∧ flags.path then 0
  else
    let want := if flags.access = 0 then wantRead else if flags.access = 1 then wantWrite
      else wantRead ||| wantWrite
    if flags.trunc then want ||| wantWrite else want

/-- The directory a path of nothing but `.` components names. -/
def retainedDirectory (raw : Option (List Byte)) : Option (Except Errno Nat) :=
  match raw with
  | none => none
  | some bytes =>
    if bytes = [] ∨ startsWithSlash bytes ∨ !(components bytes).all (· = dot) then none
    else env.cwd.map fun inode => (env.caller.search (fs.ownerOf inode)).map fun _ => inode

/-- `open_directory_inode`, with the descriptor the OS reserves for it. -/
def openDirectoryInode (env : Env) (inode : Nat) (flags : OpenFlags)
    (fd : Except Errno Nat) : Checks Nat := do
  refuse flags.writable (err .EISDIR)
  refuse (flags.creat ∧ flags.excl) (err .EEXIST)
  refuse (host = .linux ∧ flags.creat) (err .EISDIR)
  orErr (env.caller.check (fs.ownerOf inode) .directory (flags.openAccess host))
  orErr fd

inductive Opening where
  | existing (inode : Nat)
  | create (path : Path) (parent : Nat)

/-- The checks of an `open` of a path no node is at. -/
def createChecks (path : Path) (flags : OpenFlags) : Checks Opening := do
  if flags.creat ∧ (fs.owned path ∨ (parentOf path).any fs.contains) then
    let parent ← orErr (fs.parent path)
    orErr (env.caller.check (fs.ownerOf parent) .directory wantWrite)
    return .create path parent
  else if fs.owned path then .error (err .ENOENT)
  else .error none

def openChecks (env : Env) (raw : Option (List Byte)) (flags : OpenFlags) : Checks Opening := do
  let (raw, path) ← fs.spelled env raw
  let trailingSlash := endsWithSlash raw
  refuse (fs.deny path) (err .EACCES)
  refuse (fs.passthrough path) none
  refuse (host = .linux ∧ trailingSlash ∧ flags.creat ∧ fs.claims path) (err .EISDIR)
  let path ← orErr (fs.traversal host env.caller raw path true
    (trailingSlash || (!flags.noFollow && !(flags.creat && flags.excl))))
  let node := fs.tree.get? path
  refuse (host = .macos ∧ flags.symlink ∧ fs.claims path) (err .EOPNOTSUPP)
  refuse (host = .linux ∧ flags.path ∧ flags.noFollow ∧ node.any (·.kind == .symlink))
    (err .EOPNOTSUPP)
  refuse (trailingSlash ∧ node.any (·.kind == .file)) (err .ENOTDIR)
  refuse (trailingSlash ∧ node.isNone) (if fs.owned path then err .ENOENT else none)
  refuse (node.isSome ∧ flags.creat ∧ flags.excl) (err .EEXIST)
  refuse (node.any (·.isDir) ∧ flags.writable) (err .EISDIR)
  refuse (node.any (·.kind == .file) ∧ flags.directory) (err .ENOTDIR)
  refuse (host = .linux ∧ node.any (·.isDir) ∧ flags.creat) (err .EISDIR)
  match node with
  | some (.symlink _ _) => .error (err .ELOOP)
  | some node =>
    orErr (env.caller.check (fs.ownerOf node.inode) (fs.inodes node.inode).kind
      (flags.openAccess host))
    return .existing node.inode
  | none => fs.createChecks env path flags

/-- What `open` makes of the descriptor the OS reserves, `fd`, and of emptying the file, `cleared`.
-/
def opened (isDir : Bool) (flags : OpenFlags) (fd : Nat) (cleared : Except Errno Unit) : Reply :=
  match cleared with
  | .error errno => if !isDir && flags.trunc then err errno else ok fd
  | .ok () => ok fd

def open_ (env : Env) (raw : Option (List Byte)) (flags : OpenFlags) (mode : Mode)
    (fd : Except Errno Nat) (cleared : Except Errno Unit) : VirtualFs × Reply :=
  match fs.retainedDirectory env raw with
  | some (.error errno) => (fs, err errno)
  | some (.ok inode) =>
    match fs.openDirectoryInode host env inode flags fd with
    | .error reply => (fs, reply)
    | .ok fd => (fs, ok fd)
  | none =>
    match fs.openChecks host env raw flags with
    | .error reply => (fs, reply)
    | .ok (.existing inode) =>
      match fd with
      | .error errno => (fs, err errno)
      | .ok fd => (fs, opened ((fs.inodes inode).kind = .directory) flags fd cleared)
    | .ok (.create path parent) =>
      match fd with
      | .error errno => (fs.takeNumber, err errno)
      | .ok fd =>
        let owner := env.caller.create host (fs.ownerOf parent) mode .file
        (fs.place path (.file fs.nextInode) owner, opened false flags fd cleared)

end VirtualFs

/-! ## Building a file system -/

/-- Declares virtual nodes and what of the rest the file system owns, passes on or denies. -/
structure FsBuilder where
  tree : SortedMap Path VNode := .empty
  inodes : Nat → VInode := fun _ => {}
  nextInode : Nat := 0
  ownedPrefixes : List Path := []
  passthrough : Path → Bool := fun _ => false
  deny : Path → Bool := fun _ => false
  modes : SortedMap Path Mode := .empty
  owners : SortedMap Path (Nat × Nat) := .empty

variable (host : Host)

def declaredMode : Kind → Mode
  | .file => 0o644
  | .directory => 0o755
  | .symlink => if host = .macos then 0o755 else 0o777

namespace FsBuilder

variable (b : FsBuilder)

def number : Nat := b.nextInode ||| 1

variable (host : Host)

/-- Declares a node, made with the builder's next number, with an inode of its own. -/
def declare (path : Path) (node : Nat → VNode) : FsBuilder :=
  { b with
    tree := b.tree.insert path (node b.number)
    inodes := Function.update b.inodes b.number
      (.new (node b.number).kind ⟨declaredMode host (node b.number).kind, 0, 0⟩)
    nextInode := b.number + 2 }

/-- Declares the directories above a path that are not declared yet. -/
def declareAbove (path : Path) : FsBuilder :=
  (ancestors path).foldl
    (fun b above => if (b.tree.get? above).isSome then b else b.declare host above .dir) b

def file (path : List Byte) : FsBuilder :=
  (b.declareAbove host (normalize path)).declare host (normalize path) .file

def dir (path : List Byte) : FsBuilder := b.declare host (normalize path) .dir

def symlink (path target : List Byte) : FsBuilder :=
  (b.declareAbove host (normalize path)).declare host (normalize path) (.symlink · target)

end FsBuilder

variable (b : FsBuilder) (caller : Credentials)

/-- The owner a declared node starts with: what the builder named for it, and else the caller. -/
def FsBuilder.ownerFor (path : Path) (owner : Owner) : Owner :=
  let (uid, gid) := (b.owners.get? path).getD (caller.uid, caller.gid)
  ⟨(b.modes.get? path).getD owner.mode, uid, gid⟩

def FsBuilder.own (inodes : Nat → VInode) (e : Path × VNode) :
    Nat → VInode :=
  Function.update inodes e.2.inode
    { b.inodes e.2.inode with owner := b.ownerFor caller e.1 (b.inodes e.2.inode).owner }

variable (fs : VirtualFs)

/-- The directory a declared directory is in, if it is declared, gets a link. -/
def VirtualFs.linkParent (e : Path × VNode) : VirtualFs :=
  match e.2, fs.parentNode e.1 with
  | .dir _, some (.dir parent) => fs.addLink parent
  | _, _ => fs

/-- Builds the file system; `none` for the panic of a mode or an owner named for a path that is not
declared. -/
def VirtualFs.new : Option VirtualFs :=
  if (b.modes.keys ++ b.owners.keys).all fun path => (b.tree.get? path).isSome then
    let fs : VirtualFs :=
      { tree := b.tree
        -- an inode no node points at is gone
        inodes := b.tree.entries.foldl (b.own caller) fun _ => {}
        nextInode := b.nextInode ||| 1
        ownedPrefixes := b.ownedPrefixes
        passthrough := b.passthrough
        deny := b.deny }
    some (b.tree.entries.foldl VirtualFs.linkParent fs)
  else none

inductive BuilderCall where
  | file (path : List Byte)
  | dir (path : List Byte)
  | symlink (path target : List Byte)
  | mode (path : List Byte) (mode : Mode)
  | owner (path : List Byte) (uid gid : Nat)
  | ownPrefix (path : List Byte)
  | passthrough (glob : Path → Bool)
  | deny (glob : Path → Bool)

def FsBuilder.call : BuilderCall → FsBuilder
  | .file path => b.file host path
  | .dir path => b.dir host path
  | .symlink path target => b.symlink host path target
  | .mode path mode => { b with modes := b.modes.insert (normalize path) (mode &&& modeBits) }
  | .owner path uid gid => { b with owners := b.owners.insert (normalize path) (uid, gid) }
  | .ownPrefix path => { b with ownedPrefixes := b.ownedPrefixes ++ [normalize path] }
  | .passthrough glob => { b with passthrough := fun path => b.passthrough path || glob path }
  | .deny glob => { b with deny := fun path => b.deny path || glob path }

/-! ## Calls of the file system -/

inductive Call where
  | open_ (raw : Option (List Byte)) (flags : VirtualFs.OpenFlags) (mode : Mode)
      (fd : Except Errno Nat) (cleared : Except Errno Unit)
  | mkdir (raw : Option (List Byte)) (mode : Mode)
  | rmdir (raw : Option (List Byte))
  | unlink (raw : Option (List Byte))
  | symlink (target link : Option (List Byte))
  | link (from_ to_ : Option (List Byte))
  | rename (from_ to_ : Option (List Byte))

def VirtualFs.call (env : Env) : Call → VirtualFs × Reply
  | .open_ raw flags mode fd cleared => fs.open_ host env raw flags mode fd cleared
  | .mkdir raw mode => fs.mkdir host env raw mode
  | .rmdir raw => fs.rmdir host env raw
  | .unlink raw => fs.unlink host env raw
  | .symlink target link => fs.symlink host env target link
  | .link from_ to_ => fs.link host env from_ to_
  | .rename from_ to_ => fs.rename host env from_ to_

def VirtualFs.step (c : Env × Call) : VirtualFs :=
  (fs.call host c.1 c.2).1

end Snare.Fs
