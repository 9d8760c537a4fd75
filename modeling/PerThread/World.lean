import PerThread.Exec
import PerThread.Inheritance.Basic
import PerThread.Script.Reply
import PerThread.Script.Step

/-!
# The state of a session

Threads run one at a time: a thread that starts another waits for its end. So the state has one running
thread, and those that wait for it. All threads share the variables, the handles, the captures and the
values. Values are objects with counted references; tables hold references only.
-/

namespace PerThread

/-- A value made by user code. -/
structure Object where
  value : Datum
  /-- What it does when it is destroyed. -/
  onDestroy : List Step
  /-- The number of references to it. -/
  refs : Nat
deriving Inhabited

/-- A variable, whether or not anyone still holds it. -/
structure Variable where
  identity : Identity
  kind : Kind
  /-- The name of its first handle. -/
  name : Int
  recipe : Recipe (Initial Step) (Derivation Step)
  /-- The number of calls of its initializer. -/
  calls : Nat

structure Handle where
  kind : Kind
  identity : Identity
deriving DecidableEq, Repr

structure World where
  /-- The hash code that the next identity gets. -/
  nextCode : UInt32
  /-- All variables made so far, in order. -/
  catalog : Array Variable
  handles : Registry Int Handle
  /-- The identities that running operations hold, once for each. -/
  inUse : List Identity
  /-- All values made so far, in order. -/
  objects : Array Object
  captures : Registry String Inheritance
  /-- The running thread. -/
  thread : Thread
  /-- The threads that wait, the latest first. -/
  waiting : List Thread
  /-- What happened since the log was last opened. -/
  log : Array (LogEntry Reply)

namespace World

def start : World where
  nextCode := 0
  catalog := #[]
  handles := .empty
  inUse := []
  objects := #[]
  captures := .empty
  thread := .start
  waiting := []
  log := #[]

/-- An identity is live while a handle or a running operation holds it. -/
def live (w : World) : Liveness := fun key =>
  w.handles.values.any (·.identity == key) || w.inUse.contains key

def variableOf? (w : World) (key : Identity) : Option Variable := w.catalog[key.serial]?

def object (w : World) (r : Ref) : Object := w.objects.getD r default

/-- The references to an object counted anew. -/
def recount (w : World) (r : Ref) (f : Nat → Nat) : World :=
  { w with objects := w.objects.modify r fun o => { o with refs := f o.refs } }

def shown (w : World) (r : Ref) : Shown := ⟨r, (w.object r).value, (w.object r).refs⟩

end World

end PerThread
