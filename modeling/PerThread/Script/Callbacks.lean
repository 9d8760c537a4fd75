import PerThread.Action

/-!
# User code given by scripts

Initializers, derivations and the ends of values perform steps. How a step is performed is a parameter
here.
-/

namespace PerThread.Script

open Action

/-- Performs steps one after another, and logs the reply of each. -/
def performAll (perform : Step → Action Reply) : List Step → Action Unit
  | [] => pure ()
  | s :: rest => do
    let reply ← perform s
    report (.did reply)
    performAll perform rest

/-- The variable of an identity, which has been made since there is an identity. -/
def variableOf (key : Identity) : Action Variable := do
  match (← get).variableOf? key with
  | some v => return v
  | none => throw .abort

def countCall (key : Identity) : Action Unit :=
  modify fun w =>
    { w with catalog := w.catalog.modify key.serial fun v => { v with calls := v.calls + 1 } }

/-- Runs a scripted initializer of the variable first known as `name`, for the call with this number. -/
def callInitializer (perform : Step → Action Reply) (name : Int) (call : Nat) (i : Initializer Step) :
    Action Ref := do
  report (.initializerCalled name call)
  if withinCalls i.bodyCalls call then performAll perform i.body
  if let some message := i.panic then
    if withinCalls i.panicCalls call then throw (.panic message)
  newObject (i.valueAt call) i.onDestroy

/-- Makes the first value of a variable on a thread. -/
def construct (perform : Step → Action Reply) (key : Identity) : Action Ref := do
  let v ← variableOf key
  countCall key
  match v.recipe.initializer with
  | .blank => newObject .null []
  | .scripted i => callInitializer perform v.name v.calls i

/-- Makes a child's value from a parent's by the variable's derivation. -/
def derive (perform : Step → Action Reply) (key : Identity) (parent : Ref) : Action Ref := do
  let v ← variableOf key
  match v.recipe.derivation with
  | none => throw .abort
  | some d =>
    report (.derivationCalled v.name parent)
    performAll perform d.body
    if let some message := d.panic then throw (.panic message)
    newObject (d.valueFor ((← get).object parent).value) d.onDestroy

def finalize (perform : Step → Action Reply) (r : Ref) : Action Unit := do
  let o := (← get).object r
  report (.destroyed r o.value)
  performAll perform o.onDestroy

def userCode (perform : Step → Action Reply) : UserCode where
  construct := construct perform
  derive := derive perform
  finalize := finalize perform

end PerThread.Script
