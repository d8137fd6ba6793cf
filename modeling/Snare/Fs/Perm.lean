import Snare.Host

/-!
# Permissions

Who the caller of a file call is (`Credentials`) and what the mode bits, ownership, the sticky bit
and set-group-ID directories let it do. A mode is the 32-bit word of the source; a caller's own
group is among its groups, which `Credentials` carries.
-/

namespace Snare.Fs

abbrev Mode := BitVec 32

def setUid : Mode := 0o4000
def setGid : Mode := 0o2000
def sticky : Mode := 0o1000
def groupExec : Mode := 0o010
def anyExec : Mode := 0o111
def permissionBits : Mode := 0o777
def modeBits : Mode := 0o7777

/-- What a call wants of a node: a mix of `wantRead`, `wantWrite` and `wantExec`. -/
abbrev Want := BitVec 32

def wantRead : Want := 4
def wantWrite : Want := 2
def wantExec : Want := 1

structure Owner where
  mode : Mode
  uid : Nat
  gid : Nat
  deriving DecidableEq

/-- What a node is, for the rules that tell them apart. -/
inductive Kind where
  | file
  | directory
  | symlink
  deriving DecidableEq

structure Credentials where
  uid : Nat
  gid : Nat
  /-- The supplementary groups. -/
  groups : List Nat
  privileged : Bool
  /-- The umask, which macOS applies to a new symlink's mode. -/
  umask : Mode
  gid_mem : gid ∈ groups

namespace Credentials

variable (c : Credentials)

def inGroup (gid : Nat) : Bool := c.groups.contains gid

variable (owner : Owner)

/-- The bits of a mode that count for the caller: the owner's, the group's or the others'. -/
def classBits : Mode :=
  if owner.uid = c.uid then owner.mode >>> 6
  else if c.inGroup owner.gid then owner.mode >>> 3
  else owner.mode

variable (kind : Kind)

def permits (want : Want) : Bool :=
  if c.privileged then
    want &&& wantExec == 0 || kind == .directory || owner.mode &&& anyExec != 0
  else c.classBits owner &&& 7 &&& want == want

def check (want : Want) : Except Errno Unit :=
  if c.permits owner kind want then .ok () else .error .EACCES

def search : Except Errno Unit :=
  c.check owner .directory wantExec

def owns : Bool := c.privileged || owner.uid == c.uid

def kept (dir victim : Owner) : Bool :=
  dir.mode &&& sticky != 0 && !c.privileged && victim.uid != c.uid && dir.uid != c.uid

/-- `may_remove`: may the caller take `victim` out of `dir`? -/
def mayRemove (dir victim : Owner) : Except Errno Unit :=
  match c.check dir .directory (wantWrite ||| wantExec) with
  | .error e => .error e
  | .ok () => if c.kept dir victim then .error .EPERM else .ok ()

variable (mode : Mode)

/-- Whether a new file in a set-group-ID directory loses its own set-group-ID bit. -/
def stripsSetGid (gid : Nat) : Bool :=
  mode &&& (setGid ||| groupExec) == setGid ||| groupExec && !c.privileged && !c.inGroup gid

variable (host : Host)

/-- The owner of a node the caller creates in a directory owned as `parent`, from the mode it asked
for. -/
def create (c : Credentials) (parent : Owner) (mode : Mode) (kind : Kind) : Owner :=
  match host with
  | .macos =>
    let mode :=
      match kind with
      | .symlink => permissionBits &&& ~~~c.umask
      | _ => mode &&& permissionBits
    ⟨mode, c.uid, parent.gid⟩
  | .linux =>
    let inherits := parent.mode &&& setGid != 0
    let gid := if inherits then parent.gid else c.gid
    let mode :=
      match kind with
      | .symlink => permissionBits
      | .directory =>
        if inherits then mode &&& (permissionBits ||| sticky) ||| setGid
        else mode &&& (permissionBits ||| sticky)
      | .file =>
        if inherits && c.stripsSetGid mode gid then mode &&& modeBits &&& ~~~setGid
        else mode &&& modeBits
    ⟨mode, c.uid, gid⟩

/-- `chmod(2)`: the node's owner afterwards, and the result. -/
def chmod : Owner × Except Errno Unit :=
  if !c.owns owner then (owner, .error .EPERM)
  else
    let mode := mode &&& modeBits
    let mode := if !c.privileged && !c.inGroup owner.gid then mode &&& ~~~setGid else mode
    ({ owner with mode }, .ok ())

/-- `u32::MAX`, with which `chown` keeps an id. -/
def keepId : Nat := 2 ^ 32 - 1

def named (id : Nat) : Option Nat := if id ≠ keepId then some id else none

def chownAllowed (c : Credentials) (owner : Owner) (uid gid : Option Nat) : Bool :=
  let mine := owner.uid == c.uid
  match host with
  | .macos =>
    uid.all (· == owner.uid) && gid.all fun gid => gid == owner.gid || (mine && c.inGroup gid)
  | .linux =>
    uid.all (fun uid => mine && uid == owner.uid)
      && gid.all fun gid => mine && (gid == owner.gid || c.inGroup gid)

/-- What Linux takes off the mode of a non-directory that changes hands or is written: set-user-ID,
and set-group-ID with group execute. -/
def killPrivs : Mode :=
  let mode := mode &&& ~~~setUid
  if mode &&& groupExec != 0 then mode &&& ~~~setGid else mode

/-- `chown(2)`: the node's owner afterwards, and whether the call marks the change time. -/
def chown (c : Credentials) (owner : Owner) (kind : Kind) (uid gid : Nat) :
    Owner × Except Errno Bool :=
  let uid := named uid
  let gid := named gid
  if !c.privileged && !c.chownAllowed host owner uid gid then (owner, .error .EPERM)
  else
    let owner := { owner with uid := uid.getD owner.uid, gid := gid.getD owner.gid }
    match host with
    | .macos =>
      let any := uid.isSome || gid.isSome
      let mode :=
        if any && !c.privileged then owner.mode &&& ~~~(setUid ||| setGid) else owner.mode
      ({ owner with mode }, .ok any)
    | .linux =>
      let mode := if kind = .directory then owner.mode else killPrivs owner.mode
      ({ owner with mode }, .ok true)

def wrote (c : Credentials) (owner : Owner) (truncate : Bool) : Owner :=
  if c.privileged then owner
  else
    match host with
    | .macos =>
      if truncate then owner else { owner with mode := owner.mode &&& ~~~(setUid ||| setGid) }
    | .linux => { owner with mode := killPrivs owner.mode }

theorem inGroup_iff {c : Credentials} {gid : Nat} : c.inGroup gid = true ↔ gid ∈ c.groups := by
  simp [inGroup]

end Credentials

end Snare.Fs
