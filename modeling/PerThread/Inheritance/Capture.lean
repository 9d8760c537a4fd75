import PerThread.Handle.Access
import PerThread.Table.Fork

/-!
# Captures

A capture holds what a child inherits from a thread. Derivations run against a snapshot of the thread's
table, so they may use variables, even those being captured, without changing what is captured.
-/

namespace PerThread.Inheritance

open Action

/-- A child's value of one entry, while the child's table has come as far as `child`. If the derivation
panics, the values of the child's table are let go. -/
def childValue (u : UserCode) (child : Table Ref) (e : Entry Ref) : Action (Option Ref) :=
  Exec.onPanic (holding e.key (Handle.childValue u ⟨.inheritable, e.key⟩ e.value))
    (releaseAll u child.values)

/-- `capture`: what a child inherits from the running thread. The snapshot is let go last; if a
value destroyed at that point panics, the capture is lost and what it holds stays referenced. -/
def capture (u : UserCode) : Action Inheritance := do
  match (← slot .inheritable).table? with
  | none => return .nothing
  | some t =>
    let snapshot := t.copy
    snapshot.values.forM retain
    let child ← Exec.onPanic
      (snapshot.forkM (fun key => return (← get).live key) (childValue u))
      (releaseAll u snapshot.values)
    report (.event child.forkedEvent)
    releaseAll u snapshot.values
    return ⟨some child⟩

def discard (u : UserCode) (c : Inheritance) : Action Unit := releaseAll u c.values

/-- `install`: makes a capture the inheritable values of the running thread, in place of those it
had. An empty capture changes nothing. -/
def install (u : UserCode) (c : Inheritance) : Action Unit := do
  match c.table with
  | none => return
  | some t =>
    match ← slot .inheritable with
    | .absent => setSlot .inheritable (.present t)
    | .present previous =>
      setSlot .inheritable (.present t)
      releaseAll u previous.values
    | .destroyed => releaseAll u t.values

end PerThread.Inheritance
