import PerThread.Workload.Basic

/-!
# Running a workload

Steps are performed one after another. Unless the workload takes the values a table gives up by steps
of its own, they are taken from the current table after every step.
-/

namespace PerThread.Workload

variable {α ν : Type}

structure Outcome (ν : Type) where
  answer : Answer ν
  events : List Event
  bench : Bench ν

namespace Bench

def reply (b : Bench ν) (answer : Answer ν) : Outcome ν := ⟨answer, [], b⟩

def withKey (b : Bench ν) (i : Int) (act : Identity → Outcome ν) : Outcome ν :=
  match b.key? i with
  | none => b.reply .noKey
  | some k => act k.identity

def withTable (b : Bench ν) (act : Table ν → Outcome ν) : Outcome ν :=
  match b.table? with
  | none => b.reply .noTable
  | some t => act t

/-- Stores a value; the first one stored under a table's number makes the table. -/
def set (b : Bench ν) (key : Identity) (value : ν) : Outcome ν :=
  let b := { b with stored := b.stored + 1 }
  match b.table? with
  | none => ⟨.created, [], b.setTable (.singleton key value)⟩
  | some t =>
    let (t, event) := t.insert b.live key value
    ⟨.done, event.toList, b.setTable t⟩

/-- Performs one step. `make` makes the value to store of the number of values stored before. -/
def perform (make : Nat → α → ν) (b : Bench ν) : Step α → Outcome ν
  | .set i value => b.withKey i fun key => b.set key (make b.stored value)
  | .get i => b.withKey i fun key => b.withTable fun t =>
    let (found, t) := t.get? b.live key
    ⟨.value found, [], b.setTable t⟩
  | .remove i => b.withKey i fun key => b.withTable fun t =>
    ⟨.done, [], b.setTable (t.erase b.live key)⟩
  | .forget i =>
    match b.key? i with
    | none => b.reply (.forgotten false)
    | some k => ⟨.forgotten true, [], b.letGo k⟩
  | .revive i =>
    match b.anyKey? i with
    | none => b.reply .noKey
    | some k => ⟨.done, [], b.renew i k⟩
  | .use table => ⟨.done, [], { b with current := table }⟩
  | .fork table => b.withTable fun t =>
    let child := t.fork b.live b.childValue
    ⟨.done, [child.forkedEvent], { b with tables := b.tables.set table child }⟩
  | .copy table => b.withTable fun t =>
    ⟨.done, [], { b with tables := b.tables.set table t.copy }⟩
  | .take => b.withTable fun t =>
    let (taken, t) := t.takeReclaimed
    ⟨.values taken, [], b.setTable t⟩
  | .sweep => b.withTable fun t => ⟨.done, [], b.setTable (t.sweep b.live)⟩
  | .describe => b.withTable fun t => b.reply (.texts t.text t.textLines)

/-- Takes the values the current table has given up. -/
def drain (b : Bench ν) : Option (List ν) × Bench ν :=
  match b.table? with
  | none => (none, b)
  | some t => (some t.takeReclaimed.1, b.setTable t.takeReclaimed.2)

end Bench

structure Report (ν : Type) where
  answer : Answer ν
  events : List Event
  /-- The values taken from the current table after the step, if that was to be done. -/
  taken : Option (List ν)
  /-- The bench after all that. -/
  bench : Bench ν

/-- Performs one step and, unless `manual`, takes the values given up. -/
def Bench.report (make : Nat → α → ν) (manual : Bool) (b : Bench ν) (step : Step α) : Report ν :=
  let o := b.perform make step
  let (taken, after) := if manual then (none, o.bench) else o.bench.drain
  ⟨o.answer, o.events, taken, after⟩

def Bench.run (make : Nat → α → ν) (manual : Bool) (b : Bench ν) : List (Step α) → List (Report ν)
  | [] => []
  | step :: rest =>
    let r := b.report make manual step
    r :: r.bench.run make manual rest

end PerThread.Workload
