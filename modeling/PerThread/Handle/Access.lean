import PerThread.Store

/-!
# Handles

What can be done with a variable by way of a handle. Handles of one variable are equal, and each works
on the running thread's value.
-/

namespace PerThread.Handle

open Action

/-- `get`: the value, made by the initializer if the thread has none. The initializer runs before
anything is stored, and may use the variable itself. -/
def get (u : UserCode) (h : Handle) : Action Ref := do
  match ← Store.lookup u h.kind h.identity with
  | some r => return r
  | none =>
    let r ← u.construct h.identity
    retain r
    Exec.onPanic (Store.store u h.kind h.identity r) (release u r)
    return r

/-- `try_get`: the value, if the thread has one. -/
def tryGet (u : UserCode) (h : Handle) : Action (Option Ref) := Store.lookup u h.kind h.identity

/-- `set`: gives the thread a value, and hands the reference `r` over. -/
def set (u : UserCode) (h : Handle) (r : Ref) : Action Unit := Store.store u h.kind h.identity r

/-- `remove`: takes the thread's value away. The next `get` makes one anew. -/
def remove (u : UserCode) (h : Handle) : Action Unit := Store.erase u h.kind h.identity

def childRule (h : Handle) : Action (ChildRule (Derivation Step)) :=
  return ((← getThe World).variableOf? h.identity).elim .refused (·.recipe.childRule h.kind)

/-- `child_value`: a child's value for the parent's value `parent`, if the kind has any. -/
def childValue (u : UserCode) (h : Handle) (parent : Ref) : Action (Option Ref) := do
  match ← h.childRule with
  | .refused => return none
  | .shared => do retain parent; return some parent
  | .derived _ => return some (← u.derive h.identity parent)

def text (h : Handle) : Action String := do
  let recipe := ((← getThe World).variableOf? h.identity).map Variable.recipe
  return Text.wrapped h.kind.handleName (recipe.elim "" (·.identityText h.identity.hash))

end PerThread.Handle
