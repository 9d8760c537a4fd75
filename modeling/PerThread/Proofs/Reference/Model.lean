import Mathlib.Logic.Function.Basic
import PerThread.Registry
import PerThread.Script.Reply
import PerThread.Script.Run

/-!
# The reference: threads with maps

What the handles promise, without hash codes, slots, stale entries, references or destruction. Variables are
numbered in order of creation; a thread has, for each kind, a map from variables to values once it needs one.

| here | there |
| --- | --- |
| `State.maps` | the two tables of the running thread; `none` until the first store |
| `State.get` | the mapped value, or one call of the initializer and a store of the result |
| `State.inherited` | the map of a capture: the live variables, each with its child's value |
| `State.step` on `.spawn` | a thread from the captured map on, while its creator's maps stand by |
| `Origin` | the number of an object that was made directly; of a derived one, its capture and variable |

A capture calls the derivations in the order of the variables here, and in the order of the slots there. So derived
objects go by another name (`Origin.number`), and the calls of one step by any order (`AllAgree`).

The reference covers handles made, copied and dropped, the four accesses, captures, and threads. It passes over
what values do when they are destroyed, and over steps inside user code: it is for sessions without such steps.
-/

namespace PerThread.Reference

/-- What tells one object from another. -/
inductive Origin where
  /-- Made by a store or an initializer, after so many other objects. -/
  | made (number : Nat)
  /-- Made by the derivation of a variable, in the capture after so many others. -/
  | derived (capture owner : Nat)
deriving DecidableEq, Repr

structure Value where
  origin : Origin
  datum : Datum
deriving Repr

/-- A call of user code. Objects are of type `ο`. -/
inductive Call (ο : Type) where
  | initializer (name : Int) (call : Nat)
  | derivation (name : Int) (parent : ο)
deriving DecidableEq, Repr

def Call.map {ο ο' : Type} (f : ο → ο') : Call ο → Call ο'
  | .initializer name call => .initializer name call
  | .derivation name parent => .derivation name (f parent)

structure Variable where
  kind : Kind
  name : Int
  recipe : Recipe (Initial Step) (Derivation Step)
  /-- The number of calls of the initializer. -/
  calls : Nat

instance : Inhabited Variable := ⟨⟨.plain, 0, ⟨.blank, none⟩, 0⟩⟩

/-- What the next call of the initializer makes. -/
def Variable.first (x : Variable) : Datum :=
  match x.recipe.initializer with
  | .blank => .null
  | .scripted i => i.valueAt x.calls

/-- The next call as it is noted. A blank value is made without a trace. -/
def Variable.firstCalls (x : Variable) : List (Call Origin) :=
  match x.recipe.initializer with
  | .blank => []
  | .scripted _ => [.initializer x.name x.calls]

structure Handle where
  kind : Kind
  number : Nat

abbrev Map := Nat → Option Value

/-- What a step comes to: its answer, and the calls on the way. -/
structure Account (α : Type) where
  answer : α
  calls : List (Call Origin)

inductive Answer where
  | done
  | noHandle
  | nothing
  | flag (b : Bool)
  | refused (cause : ConfigError)
  | value (v : Value)
  | thread (name : Option String) (steps : List (Account Answer))

structure State where
  vars : List Variable
  handles : Registry Int Handle
  /-- All objects, in order. -/
  objects : List Value
  /-- The number of captures. -/
  captured : Nat
  captures : Registry String (Option Map)
  /-- The maps of the running thread. -/
  maps : Kind → Option Map

namespace State

def start : State := ⟨[], .empty, [], 0, .empty, fun _ => none⟩

/-! ## Variables and values -/

/-- A variable is live as long as it has a handle. -/
def live (s : State) (n : Nat) : Bool := s.handles.values.any (·.number == n)

def variableAt (s : State) (n : Nat) : Variable := s.vars.getD n default

def make (s : State) (name : Int) (kind : Kind) (recipe : Recipe (Initial Step) (Derivation Step)) : State :=
  { s with
    vars := s.vars ++ [⟨kind, name, recipe, 0⟩]
    handles := s.handles.set name ⟨kind, s.vars.length⟩ }

def read (s : State) (h : Handle) : Option Value := (s.maps h.kind).bind (· h.number)

def store (s : State) (h : Handle) (v : Value) : State :=
  { s with
    maps := Function.update s.maps h.kind
      (some (Function.update ((s.maps h.kind).getD fun _ => none) h.number (some v))) }

def remove (s : State) (h : Handle) : State :=
  { s with
    maps := Function.update s.maps h.kind
      ((s.maps h.kind).map fun m => Function.update m h.number none) }

def create (s : State) (datum : Datum) : Value × State :=
  let v : Value := ⟨.made s.objects.length, datum⟩
  (v, { s with objects := s.objects ++ [v] })

/-! ## Operations -/

def withHandle (s : State) (name : Int) (act : Handle → State × Account Answer) : State × Account Answer :=
  match s.handles.find? name with
  | none => (s, ⟨.noHandle, []⟩)
  | some h => act h

def countCall (s : State) (n : Nat) : State :=
  { s with vars := s.vars.modify n fun x => { x with calls := x.calls + 1 } }

/-- The mapped value, or else the outcome of the initializer, which is stored. -/
def get (s : State) (h : Handle) : State × Account Answer :=
  match s.read h with
  | some v => (s, ⟨.value v, []⟩)
  | none =>
    let x := s.variableAt h.number
    let (v, s) := (s.countCall h.number).create x.first
    (s.store h v, ⟨.value v, x.firstCalls⟩)

/-- The mapped value, if there is one. -/
def tryGet (s : State) (h : Handle) : State × Account Answer :=
  (s, ⟨(s.read h).elim .nothing .value, []⟩)

def set (s : State) (h : Handle) (datum : Datum) : State × Account Answer :=
  let (v, s) := s.create datum
  (s.store h v, ⟨.done, []⟩)

/-! ## Captures -/

/-- A child gets a value of its own for this variable. -/
def derives (s : State) (n : Nat) : Bool := (s.variableAt n).recipe.derivation.isSome

/-- What a child gets for a value of the variable `n`. -/
def heir (s : State) (n : Nat) (v : Value) : Value :=
  match (s.variableAt n).recipe.derivation with
  | none => v
  | some d => ⟨.derived s.captured n, d.valueFor v.datum⟩

/-- The map that a child gets: for every live variable, what it gets for the value. -/
def inherited (s : State) (m : Map) : Map := fun n =>
  if s.live n then (m n).map (s.heir n) else none

/-- Those of the variables `ns` whose derivations a capture calls, each with the parent's value. -/
def bequests (s : State) (m : Map) (ns : List Nat) : List (Nat × Value) :=
  ns.filterMap fun n => if s.live n && s.derives n then (m n).map (n, ·) else none

def derivationCall (s : State) (b : Nat × Value) : Call Origin := .derivation (s.variableAt b.1).name b.2.origin

/-- One more capture, which has made these values. -/
def passOn (s : State) (vs : List Value) : State :=
  { s with captured := s.captured + 1, objects := s.objects ++ vs }

def capture (s : State) : State × Option Map × List (Call Origin) :=
  match s.maps .inheritable with
  | none => (s.passOn [], none, [])
  | some m =>
    let bs := s.bequests m (List.range s.vars.length)
    (s.passOn (bs.map fun b => s.heir b.1 b.2), some (s.inherited m), bs.map s.derivationCall)

/-- Makes a captured map the inheritable one. Where nothing was captured, nothing changes. -/
def install (s : State) (c : Option Map) : State :=
  match c with
  | none => s
  | some m => { s with maps := Function.update s.maps .inheritable (some m) }

def takeCapture (s : State) (name : String) (missing : Answer)
    (act : State → Option Map → State × Account Answer) : State × Account Answer :=
  match s.captures.find? name with
  | none => (s, ⟨missing, []⟩)
  | some c => act { s with captures := s.captures.erase name } c

/-- What a thread inherits when it is started. -/
def handDown (s : State) : Spawn → State × Option Map × List (Call Origin)
  | .plain => (s, none, [])
  | .inheriting | .named _ => s.capture

/-- A thread of its own begins. -/
def enter (s : State) (c : Option Map) : State := { s with maps := fun _ => none }.install c

/-- The thread with the maps `maps` goes on. -/
def leave (s : State) (maps : Kind → Option Map) : State := { s with maps }

/-! ## Steps -/

mutual

def step (s : State) : Step → State × Account Answer
  | .make name kind how =>
    match Script.recipeOf kind how with
    | .error cause => (s, ⟨.refused cause, []⟩)
    | .ok recipe => (s.make name kind recipe, ⟨.done, []⟩)
  | .discard name =>
    ({ s with handles := s.handles.erase name }, ⟨.flag (s.handles.find? name).isSome, []⟩)
  | .duplicate name target =>
    s.withHandle name fun h => ({ s with handles := s.handles.set target h }, ⟨.done, []⟩)
  | .get name => s.withHandle name s.get
  | .tryGet name => s.withHandle name s.tryGet
  | .set name datum _ => s.withHandle name fun h => s.set h datum
  | .remove name => s.withHandle name fun h => (s.remove h, ⟨.done, []⟩)
  | .capture name =>
    let (s, c, calls) := s.capture
    ({ s with captures := s.captures.set name c }, ⟨.done, calls⟩)
  | .install name => s.takeCapture name .nothing fun s c => (s.install c, ⟨.done, []⟩)
  | .discardCapture name => s.takeCapture name (.flag false) fun s _ => (s, ⟨.flag true, []⟩)
  | .spawn how body =>
    let (s, c, calls) := s.handDown how
    let (s', accounts) := (s.enter c).steps body
    let name := match how with
      | .plain | .inheriting => none
      | .named name => some name
    (s'.leave s.maps, ⟨.thread name accounts, calls⟩)
  | _ => (s, ⟨.done, []⟩)

def steps (s : State) : List Step → State × List (Account Answer)
  | [] => (s, [])
  | x :: rest =>
    let (s, account) := s.step x
    let (s, accounts) := s.steps rest
    (s, account :: accounts)

end

end State

/-! ## Sessions that the reference covers -/

/-- The callbacks perform no steps and do not panic, and what they make does nothing when it is destroyed. -/
structure Quiet (r : Recipe (Initial Step) (Derivation Step)) : Prop where
  initializer : ∀ i, r.initializer = .scripted i →
    (∀ call, withinCalls i.bodyCalls call = true → i.body = []) ∧
      (∀ call, withinCalls i.panicCalls call = true → i.panic = none) ∧ i.onDestroy = []
  derivation : ∀ d, r.derivation = some d → d.body = [] ∧ d.panic = none ∧ d.onDestroy = []

/-- The step is one of the reference's, without steps in user code, and threads are nested less than `depth`
deep in it. -/
def Covered : Nat → Step → Prop
  | 0, _ => False
  | _ + 1, .make _ kind how => ∀ recipe, Script.recipeOf kind how = .ok recipe → Quiet recipe
  | _ + 1, .set _ _ onDestroy => onDestroy = []
  | depth + 1, .spawn _ steps => ∀ step ∈ steps, Covered depth step
  | _ + 1, .discard _ | _ + 1, .duplicate _ _ | _ + 1, .get _ | _ + 1, .tryGet _ | _ + 1, .remove _ => True
  | _ + 1, .capture _ | _ + 1, .install _ | _ + 1, .discardCapture _ => True
  | _, _ => False

/-! ## Agreement -/

/-- A call as it appears in a log. -/
def call? : LogEntry Reply → Option (Call Nat)
  | .initializerCalled name call => some (.initializer name call)
  | .derivationCalled name parent => some (.derivation name parent)
  | .destroyed _ _ | .did _ | .event _ => none

def callsOf (log : List (LogEntry Reply)) : List (Call Nat) := log.filterMap call?

/-- The number of an object. For every capture, `names` has the numbers that the derived objects got. -/
def Origin.number (names : List (Nat → Nat)) : Origin → Nat
  | .made n => n
  | .derived c n => names.getD c id n

mutual

/-- A reply is what the reference answers. Nothing is said about the number of references to a value. -/
inductive Agrees (number : Origin → Nat) : Reply → Answer → Prop
  | done : Agrees number .done .done
  | noHandle : Agrees number .noHandle .noHandle
  | nothing : Agrees number .nothing .nothing
  | flag (b : Bool) : Agrees number (.flag b) (.flag b)
  | refused (cause : ConfigError) : Agrees number (.refused cause) (.refused cause)
  | value (v : Value) (refs : Nat) : Agrees number (.shown ⟨number v.origin, v.datum, refs⟩) (.value v)
  | thread (name : Option String) {r : ThreadReport Reply} {accounts : List (Account Answer)}
      (steps : AllAgree number r.steps accounts)
      (silent : callsOf (r.holds ++ r.exitPlain ++ r.exitInheritable) = []) :
      Agrees number (.thread name r) (.thread name accounts)

/-- Step by step, the reply is what the reference answers, and the same calls were made on the way. -/
inductive AllAgree (number : Origin → Nat) : List (StepReport Reply) → List (Account Answer) → Prop
  | nil : AllAgree number [] []
  | cons {r : StepReport Reply} {a : Account Answer} {rs : List (StepReport Reply)}
      {accounts : List (Account Answer)} (reply : Agrees number r.reply a.answer)
      (calls : (callsOf r.log).Perm (a.calls.map (Call.map number))) (rest : AllAgree number rs accounts) :
      AllAgree number (r :: rs) (a :: accounts)

end

end PerThread.Reference
