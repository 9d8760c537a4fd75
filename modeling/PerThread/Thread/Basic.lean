import PerThread.Registry
import PerThread.Table.Basic
import PerThread.Variable.Basic

/-!
# Threads

A thread has a place for a table of each kind, and may hold values under names. Values are objects that
live elsewhere; what a thread has are references.
-/

namespace PerThread

/-- The number of an object in order of creation, which refers to it. -/
abbrev Ref := Nat

/-- The place of a thread's table of one kind. -/
inductive Slot where
  /-- No store has made a table yet. -/
  | absent
  | present (table : Table Ref)
  /-- The thread is ending, and the place cannot be used any more. -/
  | destroyed

def Slot.isDestroyed : Slot → Bool
  | .destroyed => true
  | .absent | .present _ => false

def Slot.table? : Slot → Option (Table Ref)
  | .present t => some t
  | .absent | .destroyed => none

/-- The references that a place accounts for, in slot order. -/
def Slot.values (s : Slot) : List Ref := s.table?.elim [] Table.values

structure Thread where
  plain : Slot
  inheritable : Slot
  /-- The kinds whose places have been used, whether or not there is a table, the latest first. -/
  used : List Kind
  /-- The references it holds, by name. -/
  holds : Registry String Ref

namespace Thread

def start : Thread := ⟨.absent, .absent, [], .empty⟩

def slot (t : Thread) : Kind → Slot
  | .plain => t.plain
  | .inheritable => t.inheritable

def setSlot (t : Thread) (kind : Kind) (s : Slot) : Thread :=
  match kind with
  | .plain => { t with plain := s }
  | .inheritable => { t with inheritable := s }

/-- Notes that the place of a kind is being used. Only its first use counts. -/
def markUse (t : Thread) (kind : Kind) : Thread := { t with used := t.used.insert kind }

/-- The kind whose place has to be destroyed next: of the places that have been used and are still there, the one
whose first use was the latest. -/
def due? (t : Thread) : Option Kind := t.used.find? fun kind => !(t.slot kind).isDestroyed

@[simp] theorem slot_markUse (t : Thread) (kind other : Kind) :
    (t.markUse kind).slot other = t.slot other := by
  cases other <;> rfl

@[simp] theorem slot_setSlot_self (t : Thread) (kind : Kind) (s : Slot) :
    (t.setSlot kind s).slot kind = s := by
  cases kind <;> rfl

theorem slot_setSlot_of_ne (t : Thread) {kind other : Kind} (h : other ≠ kind) (s : Slot) :
    (t.setSlot kind s).slot other = t.slot other := by
  cases kind <;> cases other <;> first | rfl | exact absurd rfl h

end Thread

end PerThread
