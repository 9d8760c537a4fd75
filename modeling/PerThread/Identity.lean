/-!
# Identities

An identity stands for one variable. Two identities are the same only if they were made by the same
act of creation: the hash code steers where a table looks, and never decides equality.
-/

namespace PerThread

/-- What a table knows a variable by. -/
structure Identity where
  /-- The number of identities made before this one. -/
  serial : Nat
  /-- The code that picks the home slot. -/
  hash : UInt32
deriving DecidableEq, Repr, Inhabited

/-- Which identities some handle or running operation still holds. All others are *stale*. -/
abbrev Liveness := Identity → Bool

end PerThread
