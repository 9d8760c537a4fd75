import PerThread.Registry
import PerThread.Table.Fork
import PerThread.Table.Insert
import PerThread.Table.Lookup

/-!
# Workloads

A workload drives several tables with keys whose hash codes are chosen at will, so that collisions,
stale entries and growth come about on purpose. Keys are held until a step lets go of them; a key
that comes back is a fresh identity with the old hash code.
-/

namespace PerThread.Workload

variable {α ν : Type}

structure Key (ν : Type) where
  /-- Its present identity. -/
  identity : Identity
  /-- What a child's table gets for the parent's value; without a rule the key is left out. -/
  childValue : Option (ν → ν)

/-- One step. Keys go by their index, and an index may be one that no key has; tables go by any number. -/
inductive Step (α : Type) where
  | set (key : Int) (value : α)
  | get (key : Int)
  | remove (key : Int)
  /-- Lets go of a key. -/
  | forget (key : Int)
  /-- Makes a key a fresh identity with the same hash code. -/
  | revive (key : Int)
  /-- Makes another table the current one, whether or not it exists. -/
  | use (table : Int)
  /-- Makes `table` a child of the current one. -/
  | fork (table : Int)
  /-- Makes `table` a copy of the current one. -/
  | copy (table : Int)
  /-- Takes the values given up. -/
  | take
  | sweep
  | describe
deriving Repr

inductive Answer (ν : Type) where
  | done
  /-- The step made the table. -/
  | created
  | noKey
  | noTable
  | value (found : Option ν)
  /-- Whether the key was still held. -/
  | forgotten (wasHeld : Bool)
  | values (taken : List ν)
  | texts (line lines : String)

/-- The keys and tables of a workload. -/
structure Bench (ν : Type) where
  keys : Array (Key ν)
  /-- For every identity made so far, whether it is still held. -/
  held : Array Bool
  tables : Registry Int (Table ν)
  /-- The number of the current table. -/
  current : Int
  /-- The number of values stored so far. -/
  stored : Nat

namespace Bench

/-- A bench with a key for each hash code and rule, all held, and without tables. -/
def start (keys : List (UInt32 × Option (ν → ν))) : Bench ν where
  keys := (keys.mapIdx fun i k => ⟨⟨i, k.1⟩, k.2⟩).toArray
  held := Array.replicate keys.length true
  tables := .empty
  current := 0
  stored := 0

def live (b : Bench ν) : Liveness := fun key => b.held.getD key.serial false

/-- The key of an index, held or not. -/
def anyKey? (b : Bench ν) : Int → Option (Key ν)
  | .ofNat i => b.keys[i]?
  | .negSucc _ => none

/-- The key of an index, while it is held. -/
def key? (b : Bench ν) (i : Int) : Option (Key ν) := (b.anyKey? i).filter fun k => b.live k.identity

def table? (b : Bench ν) : Option (Table ν) := b.tables.find? b.current

def setTable (b : Bench ν) (t : Table ν) : Bench ν := { b with tables := b.tables.set b.current t }

def childValue (b : Bench ν) (key : Identity) (value : ν) : Option ν :=
  ((b.keys.find? (·.identity == key)).bind Key.childValue).map (· value)

def letGo (b : Bench ν) (k : Key ν) : Bench ν :=
  { b with held := b.held.setIfInBounds k.identity.serial false }

/-- Key `i` with a fresh identity of the same hash code. -/
def renew (b : Bench ν) (i : Int) (k : Key ν) : Bench ν :=
  let fresh : Identity := ⟨b.held.size, k.identity.hash⟩
  let b := b.letGo k
  { b with keys := b.keys.setIfInBounds i.toNat { k with identity := fresh }, held := b.held.push true }

/-! ## What can be seen of the current table -/

/-- The slot of every held key that the table holds, by key. -/
def positions (b : Bench ν) (t : Table ν) : List (Nat × Nat) :=
  (List.range b.keys.size).filterMap fun i =>
    (b.key? (.ofNat i)).bind fun k => (t.indexOf? k.identity).map (i, ·)

end Bench

end PerThread.Workload
