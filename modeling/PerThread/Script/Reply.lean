import PerThread.Datum
import PerThread.Event
import PerThread.Table.Basic
import PerThread.Variable.Basic

/-!
# What scripts report

Every step has a reply, and everything noteworthy that happens meanwhile goes to a log. A thread's
report holds those of its steps and what happened while it ended.
-/

namespace PerThread

/-- A value as it is shown: its number in order of creation, its datum, and its references at that
moment. -/
structure Shown where
  id : Nat
  value : Datum
  refs : Nat
deriving Repr, BEq

/-- Something that happened during a step. Replies are of type `ρ`. -/
inductive LogEntry (ρ : Type) where
  /-- An initializer was called, for the variable made under this name. -/
  | initializerCalled (name : Int) (call : Nat)
  /-- A derivation was called for this parent's value. -/
  | derivationCalled (name : Int) (parent : Nat)
  /-- A value was destroyed. -/
  | destroyed (id : Nat) (value : Datum)
  /-- A step of an initializer, a derivation or a value's end was performed. -/
  | did (reply : ρ)
  | event (e : Event)
deriving Repr

structure StepReport (ρ : Type) where
  reply : ρ
  log : List (LogEntry ρ)
  /-- The size of the thread's plain table after the step, if the session is observed. -/
  plain : Option Table.Geometry
  /-- The size of the thread's inheritable table after the step, if the session is observed. -/
  inheritable : Option Table.Geometry
deriving Repr

structure ThreadReport (ρ : Type) where
  steps : List (StepReport ρ)
  /-- What happened while the values it held were let go. -/
  holds : List (LogEntry ρ)
  /-- What happened while its plain table was destroyed. -/
  exitPlain : List (LogEntry ρ)
  /-- What happened while its inheritable table was destroyed. -/
  exitInheritable : List (LogEntry ρ)
deriving Repr

inductive Reply where
  | done
  /-- There is no such handle, and nothing was done. -/
  | noHandle
  /-- The step is not for use inside initializers, derivations and ends of values. -/
  | notHere
  | differentKinds
  | nothing
  | flag (b : Bool)
  | number (n : Int64)
  | text (t : String)
  | texts (plain inheritable : String)
  | shown (s : Shown)
  | child (shared : Bool) (s : Shown)
  | equality (eq ne : Bool)
  | geometry (plain inheritable : Option Table.Geometry)
  | captured (isEmpty : Bool) (text : String)
  | refused (cause : ConfigError)
  | panicked (message : String)
  | thread (name : Option String) (report : ThreadReport Reply)
deriving Repr

/-- The report on a whole session: its first thread, and what happened while the captures left over
were discarded. -/
structure SessionReport where
  thread : ThreadReport Reply
  captures : List (LogEntry Reply)
deriving Repr

end PerThread
