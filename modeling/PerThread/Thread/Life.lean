import PerThread.Action

/-!
# The life of a thread

A thread starts without tables. When it ends, the places of its tables are destroyed, as far as they have
been used: the one whose first use was the latest comes first. From the moment the destruction of a place
begins it cannot be used, whatever the destroyed values do. A place that was never used before can be: user
code may make a table there while the other one is destroyed, and this table is destroyed after it.
-/

namespace PerThread.Thread

open Action

/-- Destroys the running thread's table of a kind, and lets its values go in slot order. A panic here
cannot be caught. -/
def destroy (u : UserCode) (kind : Kind) : Action Unit := do
  let s ← Action.slot kind
  Action.setSlot kind .destroyed
  Exec.noPanic (releaseAll u s.values)

/-- Runs a computation as a thread of its own, while the running thread waits. -/
def run {α : Type} (x : Action α) : Action α := do
  modify fun w => { w with waiting := w.thread :: w.waiting, thread := start }
  let a ← x
  modify fun w =>
    match w.waiting with
    | [] => w
    | t :: rest => { w with thread := t, waiting := rest }
  return a

end PerThread.Thread
