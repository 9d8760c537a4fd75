import PerThread.Script.Perform

/-!
# Running a session

A session is a list of steps for its first thread. A panic ends the step of the thread in whose course
it arises, and the thread goes on with its next step. A thread that has performed its steps lets go of
what it holds and ends.

A session may be observed: each step of a thread is then followed by a look at the sizes of its tables. To
look at a table is to use its place, and so decides about the order in which places are destroyed.
-/

namespace PerThread.Script

open Action

variable (u : UserCode)

/-- The sizes of the running thread's tables, if the session is observed. -/
def sizes (observed : Bool) : Action (Option Table.Geometry × Option Table.Geometry) := do
  if observed then return (← geometry .plain, ← geometry .inheritable) else return (none, none)

def reportStep (observed : Bool) (perform : Step → Action Reply) (step : Step) : Action (StepReport Reply) := do
  let (result, log) ← withLog (Exec.attempt (perform step))
  let reply := match result with
    | .ok reply => reply
    | .error message => .panicked message
  let (plain, inheritable) ← sizes observed
  return ⟨reply, log, plain, inheritable⟩

/-- Does something at the end of a thread, where no panic can be caught, and tells what happened. -/
def closing (x : Action Unit) : Action (List (LogEntry Reply)) := return (← withLog (Exec.noPanic x)).2

/-- Lets go of the values the running thread holds, in order of their names. -/
def releaseHolds : Action Unit := do
  let w ← get
  set { w with thread := { w.thread with holds := .empty } }
  releaseAll u w.thread.holds.values

/-- Discards the captures left over: each time the one with the least name, taken out of its registry
beforehand, so that destroyed values can still use the others, and add some that are discarded in their
turn. More than `limit` captures abort. -/
def discardCaptures : Nat → Action Unit
  | 0 => throw .abort
  | limit + 1 => do
    let w ← get
    match w.captures.first? with
    | none => return
    | some (name, c) =>
      set { w with captures := w.captures.erase name }
      c.discard u
      discardCaptures limit

/-- Destroys the place that is due, if there is one, and tells which it was and what happened. -/
def destroyNext : Action (Option (Kind × List (LogEntry Reply))) := do
  match (← get).thread.due? with
  | none => return none
  | some kind => return some (kind, ← closing (Thread.destroy u kind))

/-- Destroys the places that are due, and tells what happened: for the plain table, and for the inheritable one. A
thread has two places, so after two turns none is due. -/
def destroyTables : Action (List (LogEntry Reply) × List (LogEntry Reply)) := do
  let first ← destroyNext u
  let second ← destroyNext u
  let logOf := fun kind => ((first.toList ++ second.toList).lookup kind).getD []
  return (logOf .plain, logOf .inheritable)

/-- Performs the steps of the running thread, then ends it. `beforeExit` comes between letting go of
held values and the destruction of the tables. -/
def runThread {α : Type} (observed : Bool) (perform : Step → Action Reply) (beforeExit : Action α)
    (steps : List Step) : Action (ThreadReport Reply × α) := do
  let reports ← steps.mapM (reportStep observed perform)
  let holds ← closing (releaseHolds u)
  let a ← beforeExit
  let (exitPlain, exitInheritable) ← destroyTables u
  return (⟨reports, holds, exitPlain, exitInheritable⟩, a)

/-- Performs a step, user code and threads being nested at most `depth` deep. Beyond that, it aborts. -/
def performWithin (observed : Bool) : Nat → Bool → Step → Action Reply
  | 0, _, _ => throw .abort
  | depth + 1, inUserCode, step =>
    let u := userCode (performWithin observed depth true)
    let thread := fun steps => return (← runThread u observed (performWithin observed depth false) (pure ()) steps).1
    perform u thread inUserCode step

def depthLimit : Nat := 100000

def captureLimit : Nat := 1000000

/-- Runs a session within limits: its first thread, and its captures at the end. -/
def sessionWithin (observed : Bool) (depth limit : Nat) (steps : List Step) : Action SessionReport := do
  let u := userCode (performWithin observed depth true)
  let (thread, captures) ←
    runThread u observed (performWithin observed depth false) (closing (discardCaptures u limit)) steps
  return ⟨thread, captures⟩

def session (observed : Bool) : List Step → Action SessionReport := sessionWithin observed depthLimit captureLimit

/-- The report on an observed session, unless it aborts. -/
def run (steps : List Step) : Option SessionReport :=
  match session true steps .start with
  | .ok report _ => some report
  | .error _ _ => none

end PerThread.Script
