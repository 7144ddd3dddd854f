/-!
# Error numbers

The values of `errno.h` that the modelled functions return, negated or as an `ERR_PTR`. A function
that returns 0 or a negative error number is read as one that returns `Except Errno`.
-/

namespace Libjeffpc

inductive Errno where
  | ENOENT
  | ENOMEM
  | EINVAL
  | ERANGE
  | EILSEQ
  | ENOTSUP
  | EFAULT
  | EROFS
  | EOVERFLOW
  | EINTR
  | ENOSPC
  | EPIPE
  | EBUSY
  deriving DecidableEq, Repr

end Libjeffpc
