import Mathlib.Algebra.Ring.Nat

/-! The error numbers of `errno.h` that the modelled system calls return. -/

namespace UnstableOS.Kernel

/-- A failing call returns the negated number; the model returns the name. -/
inductive Errno where
  | einval | efault | ebadf | enoent | ebusy | epipe | eio | eagain | e2big | emfile | enfile
  | enotdir | eisdir | enomem | erofs | eoverflow | eintr | eperm | eexist | enxio | eacces
  | enotsup | enametoolong | enospc | enotempty | exdev | eloop | eilseq | esrch
  | edeadlk | echild | enodev
deriving Repr, DecidableEq

end UnstableOS.Kernel
