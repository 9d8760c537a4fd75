import PerThread.Table.Basic

/-!
# A child's table

A thread that inherits starts with a table made from its creator's: the same capacity, and an entry
for each live identity that has a value for a child. The values come from a computation that may have
effects of its own, so whether an identity is live is asked when its turn comes.
-/

namespace PerThread.Table

variable {ν : Type}

def inherit (child : Table ν) (e : Entry ν) (value : ν) : Table ν :=
  { child with slots := child.slots.place { e with value }, len := child.len + 1 }

/-- The loop of `from_parent`: a child's table made from `entries`, on top of what `child` has.
`childValue` also sees the table as far as it has been made. -/
def inheritAll {m : Type → Type} [Monad m] (live : Identity → m Bool)
    (childValue : Table ν → Entry ν → m (Option ν)) (child : Table ν) : List (Entry ν) → m (Table ν)
  | [] => pure child
  | e :: rest => do
    if ← live e.key then
      match ← childValue child e with
      | some value => inheritAll live childValue (child.inherit e value) rest
      | none => inheritAll live childValue child rest
    else inheritAll live childValue child rest

/-- `from_parent`: a child's table, the parent's entries taken in slot order. -/
def forkM {m : Type → Type} [Monad m] (live : Identity → m Bool)
    (childValue : Table ν → Entry ν → m (Option ν)) (parent : Table ν) : m (Table ν) :=
  inheritAll live childValue (empty parent.capacity) parent.entries

def forkedEvent (child : Table ν) : Event := .forked child.capacity child.len

/-- A child's table, where the child's values have no effects. -/
def fork (parent : Table ν) (live : Liveness) (childValue : Identity → ν → Option ν) : Table ν :=
  Id.run (forkM (fun key => pure (live key)) (fun _ e => pure (childValue e.key e.value)) parent)

end PerThread.Table
