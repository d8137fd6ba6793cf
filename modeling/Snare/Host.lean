import Snare.Lib.U64

/-!
# Builds, error numbers and buffer sizes

The source is built for Linux, macOS and Windows and branches on them at compile time; the model
takes the build as a parameter where a function does. `Os` has all three. `Host` has the two Unix
ones, where only these are modelled: of the receive queues of datagrams (`RxAccount`, `RxQueue`) the
Windows arms of `charge`, `fits`, `land_at` and `first_matching_at` are left out, and what the
modules of the file system, locks, limits and local time model is not built on Windows.
-/

namespace Snare

/-- The Unix builds. -/
inductive Host where
  | linux
  | macos
  deriving DecidableEq

/-- The `target_os` a build is for. -/
inductive Os where
  | linux
  | macos
  | windows
  deriving DecidableEq

/-- The error numbers the modelled calls fail with. -/
inductive Errno where
  | EACCES
  | EBADF
  | EAGAIN
  | EBUSY
  | EEXIST
  | EFAULT
  | EFBIG
  | EINVAL
  | EISDIR
  | ELOOP
  | EMFILE
  | ENAMETOOLONG
  | ENODEV
  | ENOENT
  | ENOMEM
  | ENOSPC
  | ENOTDIR
  | ENOTEMPTY
  /-- The kernel's own `ENOTSUPP`, 524. -/
  | ENOTSUPP
  | EOPNOTSUPP
  | EOVERFLOW
  | EPERM
  | EWOULDBLOCK
  | EXDEV
  deriving DecidableEq

def skBuffSize : Nat := 256

/-- `linux_truesize`: what Linux charges for a datagram of `len` bytes, `skb` the truesize of a
small buffer and the overhead of its head. The subtraction wraps as in a release build. -/
def linuxTruesize (len : Nat) (v6 : Bool) (skb : Nat × Nat) : Nat :=
  let need := len + (if v6 then 13 else 0) + skb.2
  if need < (skb.1 + (u64Max + 1) - skBuffSize) % (u64Max + 1) then skb.1
  else
    match [1024, 2048, 4096, 8192].find? (need < ·) with
    | some klass => klass + skBuffSize
    | none => if need < 16384 - 1 then 16384 + skBuffSize else len + skb.1

end Snare
