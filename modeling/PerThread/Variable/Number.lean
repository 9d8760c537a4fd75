import PerThread.Variable.Basic

/-!
# A variable that holds a number

A single variable of signed 64-bit numbers with a constant initializer, whose derivation, if any, adds
a number. The value presented as a parent's may be of another type; a derivation cannot read that.
-/

namespace PerThread.Variable.Number

/-- A value presented as a parent's. -/
inductive Parent where
  | number (value : Int64)
  | text (value : String)
deriving DecidableEq, Repr

/-- Why there is no child's value. -/
inductive ChildError where
  | config (cause : ConfigError)
  /-- The parent's value is not of the variable's type, which never happens to a stored value. -/
  | foreignType
deriving DecidableEq, Repr

def foreignTypeMessage : String :=
  "internal error: entered unreachable code: thread-local value type is fixed by its identity"

/-- A child's value, and whether it is the parent's value itself. -/
structure Child where
  value : Parent
  shared : Bool
deriving DecidableEq, Repr

def child (r : Recipe Int64 Int64) (kind : Kind) (parent : Parent) : Except ChildError Child :=
  match r.childRule kind with
  | .refused => .error (.config .unsupported)
  | .shared => .ok ⟨parent, true⟩
  | .derived addend =>
    match parent with
    | .number value => .ok ⟨.number (value + addend), false⟩
    | .text _ => .error .foreignType

structure Sight where
  hash : UInt32
  text : String
  initial : Int64
  child : Except ChildError Child

/-- What came of making a variable, and the hash code drawn next. -/
structure Trial where
  result : Except ConfigError Sight
  nextCode : UInt32

/-- Makes a variable as the first of all, and asks for a child's value. A variable that cannot be
made draws no code. -/
def trial (b : Builder Int64 Int64) (kind : Kind) (parent : Parent) : Trial :=
  match b.recipe with
  | .error cause => ⟨.error cause, 0⟩
  | .ok r => ⟨.ok ⟨0, r.identityText 0, r.initializer, child r kind parent⟩, HashCode.next 0⟩

end PerThread.Variable.Number
