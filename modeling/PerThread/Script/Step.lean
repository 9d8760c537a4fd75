import PerThread.Datum
import PerThread.Variable.Basic

/-!
# Scripts

User code is a list of steps. Besides the steps a thread performs, there are steps in three more
places: in a variable's initializer, in its derivation, and in a value, to be performed when the value
is destroyed.
-/

namespace PerThread

/-- How a scripted initializer makes a value. Calls are counted from zero over all threads. -/
structure Initializer (σ : Type) where
  value : Datum
  /-- Added to an integer value once per earlier call. -/
  increment : Option Int64
  /-- Steps to perform first. -/
  body : List σ
  /-- The number of calls that perform them; without it, all calls do. -/
  bodyCalls : Option Nat
  /-- The message to panic with, in place of making a value. -/
  panic : Option String
  /-- The number of calls that panic; without it, all calls do. -/
  panicCalls : Option Nat
  /-- What the value does when it is destroyed. -/
  onDestroy : List σ
deriving Repr

/-- How a thread's first value is made. -/
inductive Initial (σ : Type) where
  /-- An empty value, made without a trace. -/
  | blank
  | scripted (i : Initializer σ)
deriving Repr

/-- How a child's value is made from its parent's. Any function will do; the commonest have fields of their own. -/
structure Derivation (σ : Type) where
  /-- Added to an integer. -/
  add : Option Int64
  /-- Appended to a text. -/
  append : Option String
  /-- The value in all other cases; without it, the parent's. -/
  const : Option Datum
  /-- Steps to perform first. -/
  body : List σ
  /-- The message to panic with, in place of making a value. -/
  panic : Option String
  /-- What the value does when it is destroyed. -/
  onDestroy : List σ
  /-- Applied to what the other fields make of the parent's value. -/
  change : Datum → Datum := id

/-- Whether a call with this number is among the first `limit`, or there is no limit. -/
def withinCalls (limit : Option Nat) (call : Nat) : Bool := limit.all (call < ·)

def Initializer.valueAt {σ : Type} (i : Initializer σ) (call : Nat) : Datum :=
  match i.value.int64?, i.increment with
  | some n, some step => .ofInt64 (n + step * Int64.ofNat call)
  | _, _ => i.value

def Derivation.valueFor {σ : Type} (d : Derivation σ) (parent : Datum) : Datum :=
  d.change <|
    match d.add, parent.int64? with
    | some n, some m => .ofInt64 (m + n)
    | _, _ =>
      match d.append, parent with
      | some s, .text t => .text (t ++ s)
      | _, _ => d.const.getD parent

inductive Constructor (σ : Type) where
  /-- From an initializer alone. -/
  | initial (i : Initial σ)
  /-- By a builder, which may find fault. -/
  | builder (b : Builder (Initial σ) (Derivation σ))

inductive Spawn where
  /-- Without its creator's values. -/
  | plain
  | inheriting
  /-- Like `inheriting`, and with a name. -/
  | named (name : String)
deriving DecidableEq, Repr

/-- A step of a script. Handles go by integers, captures and held values by texts. -/
inductive Step where
  | make (handle : Int) (kind : Kind) (how : Constructor Step)
  | discard (handle : Int)
  | duplicate (handle target : Int)
  | equal (left right : Int)
  | describe (handle : Int)
  | get (handle : Int)
  | tryGet (handle : Int)
  | set (handle : Int) (value : Datum) (onDestroy : List Step)
  | remove (handle : Int)
  /-- Gets a number and stores the next one. -/
  | bump (handle : Int)
  /-- Asks what a child would get for `parent`. -/
  | childValue (handle : Int) (parent : Datum)
  /-- Gets a value and keeps a reference to it. -/
  | hold (handle : Int) (name : String)
  | held (name : String)
  | letGo (name : String)
  | stats
  | statsText
  | builderText (builder : Builder (Initial Step) (Derivation Step))
  | capture (name : String)
  | viewCapture (name : String)
  | install (name : String)
  | discardCapture (name : String)
  | spawn (how : Spawn) (steps : List Step)

end PerThread
