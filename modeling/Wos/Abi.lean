import Mathlib.Algebra.GroupWithZero.Nat
import Mathlib.Control.Monad.Basic

/-!
# The kernel's error codes and limits

The part of `include/wabi.h` that the modelled functions use. A C function that returns a
non-negative value or a negative `W_E*` code becomes a function into `Except Errno`.
-/

namespace Wos

/-- The `W_E*` codes. -/
inductive Errno
  | EPERM | ENOENT | EIO | EBADF | EACCES | EBUSY | EEXIST | EXDEV | ENOTDIR | EISDIR | EINVAL
  | ENFILE | EMFILE | EFBIG | ENOSPC | EPIPE | ENAMETOOLONG | ENOTEMPTY | ENOMEM
  | ESRCH | ENOEXEC | ECHILD | ENODEV | ECONNRESET | ETIMEDOUT | ECONNREFUSED | EHOSTUNREACH | ENOTSUP
  | EFAULT
  deriving DecidableEq, Repr

/-- `W_PATH_MAX`, the longest path without its NUL. -/
def pathMax : ℕ := 255

/-- `W_NAME_MAX` and `WFS_NAME_MAX`, the longest name of a path component. -/
def nameMax : ℕ := 27

/-- A table of four entries has a first one. -/
instance neZeroFour : NeZero (4 : ℕ) := ⟨Nat.succ_ne_zero 3⟩

end Wos
