/-
# Return codes

The error numbers the modelled functions return, as the source defines them: the
system's own start at `_SLERR_START`, the others are `errno` values. Negated or
not, they are compared with each other and with zero, never computed with.
-/
import Mathlib.Data.Int.Notation

namespace Slash2

def slerrReplNotAct : ℤ := 1001

def slerrBmapDiowait : ℤ := 1005

def slerrIonOffline : ℤ := 1010

def slerrShortio : ℤ := 1013

def slerrGenOld : ℤ := 1020

def slerrResBadtype : ℤ := 1030

def enospc : ℤ := 28

def enomem : ℤ := 12

/-- `EAGAIN`, `EWOULDBLOCK` -/
def eagain : ℤ := 11

def etimedout : ℤ := 110

def einval : ℤ := 22

def eperm : ℤ := 1

def enoent : ℤ := 2

def eacces : ℤ := 13

def exdev : ℤ := 18

def erange : ℤ := 34

def enametoolong : ℤ := 36

def enetunreach : ℤ := 101

end Slash2
