import PerThread.Cyclic
import PerThread.Event
import PerThread.Identity
import PerThread.Text

/-!
# Tables of values by identity

A table is a ring of slots. An entry belongs at its *home*, the slot its hash code names, or in a
later slot if that one is taken; all slots from its home up to its own are occupied, so a search
from home that meets a free slot may stop.

A table does not keep its identities alive. An entry whose identity nobody holds is *stale*: no
lookup can ask for it, and the table drops it when an operation comes across it. A value the table
gives up goes to the list `reclaimed`, and its owner lets go of it after the table is whole again.
-/

namespace PerThread

variable {ν : Type}

/-- What an occupied slot holds. -/
structure Entry (ν : Type) where
  key : Identity
  /-- The hash code of `key`, kept so that an entry can move without consulting its identity. -/
  hash : UInt32
  value : ν
deriving DecidableEq, Repr

namespace Entry

def of (key : Identity) (value : ν) : Entry ν := ⟨key, key.hash, value⟩

/-- `is_stale`: nobody holds the entry's identity any more. -/
def stale (live : Liveness) (e : Entry ν) : Bool := !live e.key

/-- `refers_to`: the entry is the one that a search for `key` looks for. -/
def belongs (live : Liveness) (key : Identity) (e : Entry ν) : Bool := e.key == key && live e.key

end Entry

abbrev Slots (ν : Type) := Array (Option (Entry ν))

namespace Slots

/-- `empty_slots`: a ring of free slots. -/
def free (capacity : Nat) : Slots ν := Array.replicate capacity none

def entryAt (s : Slots ν) (i : Nat) : Option (Entry ν) := s.getD i none

def put (s : Slots ν) (i : Nat) (e : Option (Entry ν)) : Slots ν := s.setIfInBounds i e

/-- `home`: the slot at which the search for a hash code starts. -/
def home (s : Slots ν) (hash : UInt32) : Nat := hash.toNat % s.size

/-- The first slot from `i` on whose content satisfies `p`, all slots being visited once. -/
def seek (s : Slots ν) (p : Option (Entry ν) → Bool) (i : Nat) : Option Nat :=
  Cyclic.seek s.size (fun j => p (s.entryAt j)) s.size i

/-- An entry put into the first free slot from its home on. -/
def place (s : Slots ν) (e : Entry ν) : Slots ν :=
  match s.seek Option.isNone (s.home e.hash) with
  | some i => s.put i (some e)
  | none => s

/-- The entries in slot order. -/
def entries (s : Slots ν) : List (Entry ν) := s.toList.filterMap id

@[simp] theorem size_free (n : Nat) : (free n : Slots ν).size = n := by simp [free]

@[simp] theorem size_put (s : Slots ν) (i : Nat) (e : Option (Entry ν)) :
    (s.put i e).size = s.size := by simp [put]

@[simp] theorem size_place (s : Slots ν) (e : Entry ν) : (s.place e).size = s.size := by
  unfold place; split <;> simp

theorem entryAt_free (n i : Nat) : (free n : Slots ν).entryAt i = none := by
  simp only [entryAt, free, Array.getD_eq_getD_getElem?, Array.getElem?_replicate]
  split <;> rfl

theorem entryAt_put {s : Slots ν} {i : Nat} (h : i < s.size) (e : Option (Entry ν)) (j : Nat) :
    (s.put i e).entryAt j = if i = j then e else s.entryAt j := by
  simp only [entryAt, put, Array.getD_eq_getD_getElem?, Array.getElem?_setIfInBounds, h, if_true]
  split <;> rfl

end Slots

/-- Values by identity. -/
structure Table (ν : Type) where
  slots : Slots ν
  /-- The number of occupied slots, those of stale entries included. -/
  len : Nat
  /-- A table this full makes room before the insertion is over. -/
  threshold : Nat
  /-- The values given up and not yet taken, the earliest first. -/
  reclaimed : List ν
deriving Repr

namespace Table

/-- The capacity of a table that holds its first entry. -/
def initialCapacity : Nat := 16

/-- `threshold_for`: a ring is never filled beyond two thirds. -/
def thresholdFor (capacity : Nat) : Nat := capacity * 2 / 3

def capacity (t : Table ν) : Nat := t.slots.size

def empty (capacity : Nat) : Table ν := ⟨Slots.free capacity, 0, thresholdFor capacity, []⟩

/-- `new`: the table made by the first store. Its one entry is in its home slot. -/
def singleton (key : Identity) (value : ν) : Table ν :=
  let t : Table ν := empty initialCapacity
  { t with slots := t.slots.put (t.slots.home key.hash) (some (.of key value)), len := 1 }

def entryAt (t : Table ν) (i : Nat) : Option (Entry ν) := t.slots.entryAt i

def next (t : Table ν) (i : Nat) : Nat := Cyclic.next t.capacity i

def prev (t : Table ν) (i : Nat) : Nat := Cyclic.prev t.capacity i

/-- `is_stale_at`: slot `i` holds an entry that nobody can ask for. -/
def staleAt (t : Table ν) (live : Liveness) (i : Nat) : Bool := (t.entryAt i).any (·.stale live)

def entries (t : Table ν) : List (Entry ν) := t.slots.entries

/-- The values in slot order, those of stale entries included. -/
def values (t : Table ν) : List ν := t.entries.map Entry.value

def staleCount (t : Table ν) (live : Liveness) : Nat := t.entries.countP (·.stale live)

/-- `index_of`: the slot that `key` occupies. -/
def indexOf? (t : Table ν) (key : Identity) : Option Nat :=
  t.slots.toList.findIdx? (·.any (·.key == key))

/-- `take_reclaimed`: the values given up so far, taken out of the table. -/
def takeReclaimed (t : Table ν) : List ν × Table ν := (t.reclaimed, { t with reclaimed := [] })

/-- `clone`: the same slots with the same values. Values given up and not yet taken stay with the
first. -/
def copy (t : Table ν) : Table ν := { t with reclaimed := [] }

@[simp] theorem capacity_empty (n : Nat) : (empty n : Table ν).capacity = n := by
  simp [capacity, empty]

@[simp] theorem capacity_singleton (key : Identity) (value : ν) :
    (singleton key value).capacity = initialCapacity := by
  simp [capacity, singleton, empty]

/-! ## Geometry -/

/-- The size of a table, as its users may ask for it. -/
structure Geometry where
  capacity : Nat
  len : Nat
  threshold : Nat
deriving DecidableEq, Repr

def geometry (t : Table ν) : Geometry := ⟨t.capacity, t.len, t.threshold⟩

def Geometry.parts (g : Geometry) : Text.Parts :=
  [("capacity", toString g.capacity), ("len", toString g.len), ("threshold", toString g.threshold)]

def Geometry.text (g : Geometry) : String := Text.record "TableStats" g.parts false

/-- The description of a table. Its entries are not shown. -/
def text (t : Table ν) : String := Text.record "LocalTable" t.geometry.parts true

def textLines (t : Table ν) : String := Text.recordLines "LocalTable" t.geometry.parts true

end Table

end PerThread
