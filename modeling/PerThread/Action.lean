import PerThread.World

/-!
# Elementary actions on a session

References, the log, and the table of the running thread.
-/

namespace PerThread

/-- A computation on the state of a session. -/
abbrev Action (α : Type) := Exec World α

/-- The code that users supply. -/
structure UserCode where
  /-- Makes the value of a variable on a thread that has none. The result is a reference. -/
  construct : Identity → Action Ref
  /-- Makes a child's value from a parent's. The result is a reference. -/
  derive : Identity → Ref → Action Ref
  /-- What happens when the last reference to a value is gone. -/
  finalize : Ref → Action Unit

namespace Action

variable {α β : Type}

def report (e : LogEntry Reply) : Action Unit := modify fun w => { w with log := w.log.push e }

/-- Runs a computation with a log of its own, which is part of the result. -/
def withLog (x : Action α) : Action (α × List (LogEntry Reply)) := do
  let outer := (← get).log
  modify fun w => { w with log := #[] }
  let a ← x
  let log := (← get).log
  modify fun w => { w with log := outer }
  return (a, log.toList)

/-- Holds an identity for the time of a computation. -/
def holding (key : Identity) (x : Action α) : Action α := do
  modify fun w => { w with inUse := key :: w.inUse }
  Exec.ensuring x (modify fun w => { w with inUse := w.inUse.erase key })

/-! ## References -/

/-- Makes a value, with one reference to it. -/
def newObject (value : Datum) (onDestroy : List Step) : Action Ref := do
  let w ← get
  set { w with objects := w.objects.push ⟨value, onDestroy, 1⟩ }
  return w.objects.size

def retain (r : Ref) : Action Unit := modify (·.recount r (· + 1))

/-- Lets a reference go. The value is destroyed with its last one. -/
def release (u : UserCode) (r : Ref) : Action Unit := do
  modify (·.recount r (· - 1))
  if ((← get).object r).refs = 0 then u.finalize r

/-- Lets references go one after another. A panic does not keep those that follow. -/
def releaseAll (u : UserCode) : List Ref → Action Unit
  | [] => pure ()
  | r :: rest => Exec.ensuring (release u r) (releaseAll u rest)

def view (r : Ref) : Action Shown := return (← get).shown r

/-! ## The running thread's tables -/

/-- The place of the running thread's table of a kind. To ask for it is to use it. -/
def slot (kind : Kind) : Action Slot := do
  modify fun w => { w with thread := w.thread.markUse kind }
  return (← get).thread.slot kind

def setSlot (kind : Kind) (s : Slot) : Action Unit :=
  modify fun w => { w with thread := w.thread.setSlot kind s }

/-- `local_table_stats` and `inheritable_table_stats`: the size of the running thread's table of a
kind. -/
def geometry (kind : Kind) : Action (Option Table.Geometry) :=
  return (← slot kind).table?.map Table.geometry

/-- One complete operation on the running thread's table `t` of a kind: its result, and the values the
table gave up. They are out of the table, and nobody has let them go yet. -/
def updateTable (kind : Kind) (t : Table Ref) (op : Table Ref → Liveness → β × Table Ref) :
    Action (β × List Ref) := do
  let (result, t) := op t (← get).live
  let (given, t) := t.takeReclaimed
  setSlot kind (.present t)
  return (result, given)

/-! ## What elementary actions do -/

theorem slot_run (kind : Kind) (w : World) :
    slot kind w = .ok (w.thread.slot kind) { w with thread := w.thread.markUse kind } :=
  congrArg (fun s => EStateM.Result.ok s _) (Thread.slot_markUse w.thread kind kind)

theorem newObject_run (value : Datum) (onDestroy : List Step) (w : World) :
    newObject value onDestroy w =
      .ok w.objects.size { w with objects := w.objects.push ⟨value, onDestroy, 1⟩ } := rfl

theorem holding_run (key : Identity) (x : Action α) (w : World) :
    holding key x w =
      match x { w with inUse := key :: w.inUse } with
      | .ok a w' => .ok a { w' with inUse := w'.inUse.erase key }
      | .error (.panic message) w' => .error (.panic message) { w' with inUse := w'.inUse.erase key }
      | .error .abort w' => .error .abort w' := by
  show Exec.ensuring x _ { w with inUse := key :: w.inUse } = _
  rw [Exec.ensuring_run]
  rcases x { w with inUse := key :: w.inUse } with ⟨a, w'⟩ | ⟨message | _, w'⟩ <;> rfl

theorem holding_ok {key : Identity} {x : Action α} {w w' : World} {a : α}
    (h : holding key x w = .ok a w') :
    ∃ q, x { w with inUse := key :: w.inUse } = .ok a q ∧ w' = { q with inUse := q.inUse.erase key } := by
  rw [holding_run] at h
  rcases hx : x { w with inUse := key :: w.inUse } with ⟨b, q⟩ | ⟨message | _, q⟩
  · rw [hx] at h
    cases h
    exact ⟨q, rfl, rfl⟩
  · rw [hx] at h
    cases h
  · rw [hx] at h
    cases h

/-- A table update leaves a table that has nothing to give up any more. -/
theorem updateTable_run (kind : Kind) (t : Table Ref) (op : Table Ref → Liveness → β × Table Ref)
    (w : World) :
    updateTable kind t op w =
      .ok ((op t w.live).1, (op t w.live).2.reclaimed)
        { w with
          thread := w.thread.setSlot kind (.present { (op t w.live).2 with reclaimed := [] }) } := rfl

end Action

end PerThread
