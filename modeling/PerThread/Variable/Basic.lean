import PerThread.HashCode
import PerThread.Identity
import PerThread.Text

/-!
# Variables

A variable has one value per thread. It needs an initializer, which gives a thread its first value.
What a new thread gets for its creator's value depends on the kind of the variable: nothing if the
variable is plain; if it is inheritable, what its derivation makes of the creator's value, or that
value itself if there is no derivation.

Initializers are of type `ι` here, derivations of type `δ`.
-/

namespace PerThread

variable {ι δ : Type}

/-- The two kinds of variables. Each thread has a table for each. -/
inductive Kind where
  | plain
  | inheritable
deriving DecidableEq, Repr

def Kind.handleName : Kind → String
  | .plain => "ThreadLocal"
  | .inheritable => "InheritableThreadLocal"

/-- Why a variable cannot be made, or a child's value not be had. -/
inductive ConfigError where
  | missingInitializer
  | unsupported
deriving DecidableEq, Repr

namespace ConfigError

def name : ConfigError → String
  | missingInitializer => "MissingInitializer"
  | unsupported => "Unsupported"

def message : ConfigError → String
  | missingInitializer => "thread-local requires an initializer"
  | unsupported => "thread-local does not support inheritance"

end ConfigError

/-- What a variable is made of. -/
structure Recipe (ι δ : Type) where
  initializer : ι
  derivation : Option δ
deriving Repr

/-- What a child gets for a parent's value. -/
inductive ChildRule (δ : Type) where
  /-- No value. -/
  | refused
  /-- The parent's value itself. -/
  | shared
  /-- A value made from the parent's. -/
  | derived (d : δ)

namespace Recipe

/-- `child_value`: what a child gets for a value of such a variable in a table of the given kind. -/
def childRule (r : Recipe ι δ) : Kind → ChildRule δ
  | .plain => .refused
  | .inheritable => r.derivation.elim .shared .derived

def identityText (r : Recipe ι δ) (hash : UInt32) : String :=
  Text.record "Identity"
    [("hash", HashCode.text hash), ("inheritable_derive", Text.flag r.derivation.isSome)] false

end Recipe

/-- What is known so far of a variable to be made. -/
structure Builder (ι δ : Type) where
  initializer : Option ι
  derivation : Option δ
deriving Repr

namespace Builder

def recipe (b : Builder ι δ) : Except ConfigError (Recipe ι δ) :=
  match b.initializer with
  | none => .error .missingInitializer
  | some i => .ok ⟨i, b.derivation⟩

/-- `build` and `build_inheritable`: the recipe of a variable of the given kind. A plain one must
not have a derivation, and that is found before a missing initializer. -/
def build (b : Builder ι δ) : Kind → Except ConfigError (Recipe ι δ)
  | .plain => if b.derivation.isSome then .error .unsupported else b.recipe
  | .inheritable => b.recipe

def text (b : Builder ι δ) : String :=
  Text.record "Builder"
    [("initial", Text.flag b.initializer.isSome), ("child_value", Text.flag b.derivation.isSome)]
    false

end Builder

end PerThread
