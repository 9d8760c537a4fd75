import PerThread.Thread.Basic

/-!
# What one thread hands over to another
-/

namespace PerThread

/-- The inheritable values of one thread on their way to another. Without a table there is nothing to
hand over, which differs from a table without entries. -/
structure Inheritance where
  table : Option (Table Ref)

namespace Inheritance

/-- A thread that has never stored an inheritable value has nothing to hand over. -/
def nothing : Inheritance := ⟨none⟩

/-- `is_empty`: there is nothing to hand over. -/
def isEmpty (c : Inheritance) : Bool := c.table.isNone

def values (c : Inheritance) : List Ref := c.table.elim [] Table.values

def text (c : Inheritance) : String :=
  Text.record "Inheritance" [("table", Text.optional (c.table.map Table.text))] false

end Inheritance

end PerThread
