/-! The error numbers that the library returns, negated, as `int` results. -/

namespace PortableLib

inductive Errno
  | enoent
  | e2big
  | ebadf
  | enomem
  | eexist
  | einval
  | enospc
  | eilseq
  | enobufs
  | erange
  | eoverflow
  deriving DecidableEq, Repr

def Errno.code : Errno → Int
  | .enoent => 2
  | .e2big => 7
  | .ebadf => 9
  | .enomem => 12
  | .eexist => 17
  | .einval => 22
  | .enospc => 28
  | .eilseq => 84
  | .enobufs => 105
  | .erange => 34
  | .eoverflow => 75

end PortableLib
