import PerThread.Script.Callbacks
import PerThread.Inheritance.Capture
import PerThread.Thread.Life

/-!
# Performing a step

What each step does, given the user code that variables and values bring along and a way to run the
steps of a thread. A step holds the identity of the handle it works on until it is over.
-/

namespace PerThread.Script

open Action

variable (u : UserCode)

/-! ## Handles -/

/-- Works with the handle of a name, while its identity is held. -/
def withHandle (name : Int) (act : Handle → Action Reply) : Action Reply := do
  match (← get).handles.find? name with
  | none => return .noHandle
  | some h => holding h.identity (act h)

/-- Makes a variable, and puts its first handle under a name. -/
def makeVariable (name : Int) (kind : Kind) (recipe : Recipe (Initial Step) (Derivation Step)) :
    Action Unit :=
  modify fun w =>
    let identity : Identity := ⟨w.catalog.size, w.nextCode⟩
    { w with
      nextCode := HashCode.next w.nextCode
      catalog := w.catalog.push ⟨identity, kind, name, recipe, 0⟩
      handles := w.handles.set name ⟨kind, identity⟩ }

/-- What a constructor gives a variable of a kind. Only a builder can find fault. -/
def recipeOf (kind : Kind) :
    Constructor Step → Except ConfigError (Recipe (Initial Step) (Derivation Step))
  | .initial i => .ok ⟨i, none⟩
  | .builder b => b.build kind

def make (name : Int) (kind : Kind) (how : Constructor Step) : Action Reply := do
  match recipeOf kind how with
  | .error cause => return .refused cause
  | .ok recipe => do makeVariable name kind recipe; return .done

def discardHandle (name : Int) : Action Reply := do
  let w ← get
  set { w with handles := w.handles.erase name }
  return .flag (w.handles.find? name).isSome

def duplicateHandle (name target : Int) : Action Reply := do
  let w ← get
  match w.handles.find? name with
  | none => return .noHandle
  | some h => do
    set { w with handles := w.handles.set target h }
    return .done

/-- Compares two handles, which must be of one kind. -/
def compareHandles (left right : Int) : Action Reply := do
  let handles := (← get).handles
  match handles.find? left, handles.find? right with
  | some a, some b =>
    return if a.kind = b.kind then .equality (a == b) (a != b) else .differentKinds
  | _, _ => return .noHandle

/-! ## Values -/

def showAndRelease (r : Ref) : Action Reply := do
  let s ← view r
  release u r
  return .shown s

/-- Gets a value, counts on from it, and stores the next number. -/
def bump (h : Handle) : Action Reply := do
  let r ← h.get u
  let n := (((← get).object r).value.int64?.getD 0) + 1
  release u r
  h.set u (← newObject (.ofInt64 n) [])
  return .number n

/-- Shows what a child would get for a parent's value made for the purpose. -/
def childValue (h : Handle) (value : Datum) : Action Reply := do
  let parent ← newObject value []
  match ← Exec.onPanic (h.childValue u parent) (release u parent) with
  | none =>
    release u parent
    return .refused .unsupported
  | some child =>
    let s ← view child
    Exec.ensuring (release u child) (release u parent)
    return .child (child = parent) s

/-! ## Held values -/

/-- Puts a reference under a name, and lets the one go that was there. -/
def keep (name : String) (r : Ref) : Action Unit := do
  let w ← get
  set { w with thread := { w.thread with holds := w.thread.holds.set name r } }
  (w.thread.holds.find? name).forM (release u)

def hold (h : Handle) (name : String) : Action Reply := do
  let r ← h.get u
  let s ← view r
  keep u name r
  return .shown s

def held (name : String) : Action Reply := do
  match (← get).thread.holds.find? name with
  | none => return .nothing
  | some r => return .shown (← view r)

def letGo (name : String) : Action Reply := do
  let w ← get
  match w.thread.holds.find? name with
  | none => return .flag false
  | some r =>
    set { w with thread := { w.thread with holds := w.thread.holds.erase name } }
    release u r
    return .flag true

/-! ## Captures -/

def capture (name : String) : Action Reply := do
  let c ← Inheritance.capture u
  let w ← get
  set { w with captures := w.captures.set name c }
  (w.captures.find? name).forM (Inheritance.discard u)
  return .done

def viewCapture (name : String) : Action Reply := do
  match (← get).captures.find? name with
  | none => return .nothing
  | some c => return .captured c.isEmpty c.text

/-- Takes a capture from its name, and does something with it. -/
def takeCapture (name : String) (missing : Reply) (act : Inheritance → Action Reply) :
    Action Reply := do
  let w ← get
  match w.captures.find? name with
  | none => return missing
  | some c =>
    set { w with captures := w.captures.erase name }
    act c

/-! ## Threads -/

/-- `spawn` and `spawn_with`: runs a thread to its end. What it inherits is captured beforehand by
its creator. `runThread` performs the steps and all that follows them. -/
def spawn (runThread : List Step → Action (ThreadReport Reply)) (how : Spawn) (steps : List Step) :
    Action Reply := do
  let inherited ← match how with
    | .plain => pure Inheritance.nothing
    | .inheriting | .named _ => Inheritance.capture u
  let r ← Thread.run do
    Inheritance.install u inherited
    runThread steps
  let name := match how with
    | .plain | .inheriting => none
    | .named name => some name
  return .thread name r

/-- Performs a step. Steps that work on held values are not for use in user code. -/
def perform (runThread : List Step → Action (ThreadReport Reply)) (inUserCode : Bool) :
    Step → Action Reply
  | .make name kind how => make name kind how
  | .discard name => discardHandle name
  | .duplicate name target => duplicateHandle name target
  | .equal left right => compareHandles left right
  | .describe name => withHandle name fun h => return .text (← h.text)
  | .get name => withHandle name fun h => do showAndRelease u (← h.get u)
  | .tryGet name => withHandle name fun h => do
    match ← h.tryGet u with
    | none => return .nothing
    | some r => showAndRelease u r
  | .set name value onDestroy => withHandle name fun h => do
    h.set u (← newObject value onDestroy)
    return .done
  | .remove name => withHandle name fun h => do
    h.remove u
    return .done
  | .bump name => withHandle name (bump u)
  | .childValue name parent => withHandle name fun h => childValue u h parent
  | .hold name target => withHandle name fun h =>
    if inUserCode then return .notHere else hold u h target
  | .held name => if inUserCode then return .notHere else held name
  | .letGo name => if inUserCode then return .notHere else letGo u name
  | .stats => return .geometry (← geometry .plain) (← geometry .inheritable)
  | .statsText => do
    let text := fun g : Option Table.Geometry => Text.optional (g.map Table.Geometry.text)
    return .texts (text (← geometry .plain)) (text (← geometry .inheritable))
  | .builderText b => return .text b.text
  | .capture name => capture u name
  | .viewCapture name => viewCapture name
  | .install name => takeCapture name .nothing fun c => do
    c.install u
    return .done
  | .discardCapture name => takeCapture name (.flag false) fun c => do
    c.discard u
    return .flag true
  | .spawn how steps => spawn u runThread how steps

end PerThread.Script
