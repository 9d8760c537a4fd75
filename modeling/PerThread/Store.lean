import PerThread.Action
import PerThread.Table.Insert
import PerThread.Table.Lookup

/-!
# The stores of a thread

Looking up, storing and erasing a value on the running thread. Each operation first brings the table
into its final form, and only then lets go of the values the table gave up: destroying a value may run
user code, which then finds every table whole. A thread that is ending has no store any more: it holds
nothing and takes nothing.
-/

namespace PerThread.Store

open Action

/-- `lookup`: a reference to this thread's value of `key`, without making one. -/
def lookup (u : UserCode) (kind : Kind) (key : Identity) : Action (Option Ref) := do
  match ← slot kind with
  | .absent | .destroyed => return none
  | .present t =>
    let (found, given) ← updateTable kind t fun t live => t.get? live key
    found.forM retain
    Exec.onPanic (releaseAll u given) (found.forM (release u))
    return found

/-- `store`: hands the reference `r` over to this thread's table, as the value of `key`. The first
store makes the table; a store that comes too late lets the reference go. -/
def store (u : UserCode) (kind : Kind) (key : Identity) (r : Ref) : Action Unit := do
  match ← slot kind with
  | .absent =>
    report (.event .allocating)
    setSlot kind (.present (.singleton key r))
  | .present t =>
    let (event, given) ← updateTable kind t fun t live => (t.insert live key r).swap
    event.forM fun e => report (.event e)
    releaseAll u given
  | .destroyed =>
    release u r
    report (.event .storageDestroyed)

/-- `remove`: takes this thread's value of `key` out of its table. -/
def erase (u : UserCode) (kind : Kind) (key : Identity) : Action Unit := do
  match ← slot kind with
  | .absent | .destroyed => return
  | .present t =>
    let (_, given) ← updateTable kind t fun t live => ((), t.erase live key)
    releaseAll u given

/-! ## One update, then releases -/

/-- Erasing is one update of the table, followed by the release of what the table gave up. -/
theorem erase_run {u : UserCode} {kind : Kind} {key : Identity} {w : World} {t : Table Ref}
    (h : w.thread.slot kind = .present t) :
    erase u kind key w =
      let after := t.erase w.live key
      releaseAll u after.reclaimed
        { w with
          thread := (w.thread.markUse kind).setSlot kind (.present { after with reclaimed := [] }) } := by
  unfold erase
  simp only [bind, EStateM.bind, slot_run, h]
  rfl

end PerThread.Store
