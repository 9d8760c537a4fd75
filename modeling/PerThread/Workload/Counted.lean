import PerThread.Workload.Run

/-!
# Workloads on counted objects

Every stored value is an object of its own, and copies of a table share the objects. An object lives
as long as it has an owner: a slot of some table, stale or not, or a table's list of values given up.
-/

namespace PerThread.Workload.Counted

structure Object where
  /-- The number of objects stored before it; an object made for a child's table has none. -/
  origin : Option Nat
  number : UInt32
deriving DecidableEq, Repr

/-- The object that a child's table gets: a new one, with the next number. -/
def successor (o : Object) : Object := ⟨none, o.number + 1⟩

def start (keys : List (UInt32 × Bool)) : Bench Object :=
  .start (keys.map fun k => (k.1, if k.2 then some successor else none))

/-- Runs a workload. Every number stored makes an object. -/
def run (manual : Bool) (keys : List (UInt32 × Bool)) (steps : List (Step UInt32)) :
    List (Report Object) :=
  (start keys).run (fun made number => ⟨some made, number⟩) manual steps

/-- One object for every owner, all tables taken together. -/
def owners (b : Bench Object) : List Object :=
  b.tables.values.flatMap fun t => t.values ++ t.reclaimed

/-- The stored objects that still have owners, in the order in which they were made: the number of
each, and how many owners it has. -/
def owned (b : Bench Object) : List (UInt32 × Nat) :=
  let stored := (owners b).filterMap fun o => o.origin.map fun made => (made, o.number)
  let groups := (stored.mergeSort fun x y => x.1 ≤ y.1).splitBy fun x y => x.1 == y.1
  groups.filterMap fun group => group.head?.map fun o => (o.2, group.length)

end PerThread.Workload.Counted
