import PerThread.Proofs.Session.Whole
import PerThread.Script.Run

/-!
# The steps of a session on whole states

Whatever a step does, it is alike for all user code that is alike (`steady_perform`), and so is a thread with
all its steps and its end (`steady_runThread`). Steps that name a handle hold its identity, so the operations on
tables find it alive.
-/

namespace PerThread.Script

open Exec (Alike Anything)
open Action

variable {u v : UserCode} {us : List Identity} {α : Type} {P : α → Prop} {x y : Action α}
  {p q : Step → Action Reply}

/-! ## User code given by scripts -/

theorem steady_performAll (h : ∀ step, Alike (World.Calm us) Anything (p step) (q step)) (steps : List Step) :
    Alike (World.Calm us) Anything (performAll p steps) (performAll q steps) := by
  induction steps with
  | nil => exact .pure trivial
  | cons step rest ih =>
    refine (h step).bind fun reply _ => ?_
    exact (steady_report _).andThen ih

theorem steady_variableOf (key : Identity) :
    Alike (World.Calm us) Anything (variableOf key) (variableOf key) := by
  refine Alike.read.bind fun w _ => ?_
  cases w.variableOf? key with
  | none => exact .abort
  | some x => exact .pure trivial

theorem steady_callInitializer (h : ∀ step, Alike (World.Calm us) Anything (p step) (q step)) (name : Int)
    (call : Nat) (i : Initializer Step) :
    Alike (World.Calm us) Anything (callInitializer p name call i) (callInitializer q name call i) := by
  have hmake : Alike (World.Calm us) Anything (newObject (i.valueAt call) i.onDestroy)
      (newObject (i.valueAt call) i.onDestroy) := steady_newObject _ _
  have hbody {x y : Action Ref} (hxy : Alike (World.Calm us) Anything x y) :
      Alike (World.Calm us) Anything
        (do
          if withinCalls i.bodyCalls call then performAll p i.body
          x)
        (do
          if withinCalls i.bodyCalls call then performAll q i.body
          y) := by
    by_cases hcall : withinCalls i.bodyCalls call = true
    · simp only [hcall, if_true]
      exact (steady_performAll h i.body).andThen hxy
    · simp only [hcall]
      exact hxy
  unfold callInitializer
  refine (steady_report _).andThen ?_
  cases i.panic with
  | none => exact hbody hmake
  | some message =>
    by_cases hcall : withinCalls i.panicCalls call = true
    · simp only [hcall, if_true]
      exact hbody ((Alike.panic message).andThen hmake)
    · simp only [hcall]
      exact hbody hmake

theorem steady_construct (h : ∀ step, Alike (World.Calm us) Anything (p step) (q step)) (key : Identity) :
    Alike (World.Calm us) Anything (construct p key) (construct q key) := by
  refine (steady_variableOf key).bind fun x _ => ?_
  refine (Alike.update fun _ hw => hw.frame rfl rfl rfl rfl rfl).andThen ?_
  cases x.recipe.initializer with
  | blank => exact steady_newObject _ _
  | scripted i => exact steady_callInitializer h x.name x.calls i

theorem steady_derive (h : ∀ step, Alike (World.Calm us) Anything (p step) (q step)) (key : Identity)
    (parent : Ref) : Alike (World.Calm us) Anything (derive p key parent) (derive q key parent) := by
  refine (steady_variableOf key).bind fun x _ => ?_
  cases x.recipe.derivation with
  | none => exact .abort
  | some d =>
    refine (steady_report _).andThen ?_
    refine (steady_performAll h d.body).andThen ?_
    have hmake : Alike (World.Calm us) Anything
        (do newObject (d.valueFor ((← get).object parent).value) d.onDestroy)
        (do newObject (d.valueFor ((← get).object parent).value) d.onDestroy) :=
      Alike.read.bind fun w _ => steady_newObject _ _
    cases d.panic with
    | none => exact hmake
    | some message => exact (Alike.panic message).andThen hmake

theorem steady_finalize (h : ∀ step, Alike (World.Calm us) Anything (p step) (q step)) (r : Ref) :
    Alike (World.Calm us) Anything (finalize p r) (finalize q r) := by
  refine Alike.read.bind fun w _ => ?_
  exact (steady_report _).andThen (steady_performAll h _)

theorem steady_userCode (h : ∀ us step, Alike (World.Calm us) Anything (p step) (q step)) :
    (userCode p).Steady (userCode q) where
  construct us key := steady_construct (h us) key
  derive us key parent := steady_derive (h us) key parent
  finalize us r := steady_finalize (h us) r

/-! ## Steps -/

theorem steady_withHandle (name : Int) {f g : Handle → Action Reply}
    (h : ∀ h : Handle, Alike (World.Calm (h.identity :: us)) Anything (f h) (g h)) :
    Alike (World.Calm us) Anything (withHandle name f) (withHandle name g) := by
  refine Alike.read.bind fun w _ => ?_
  cases w.handles.find? name with
  | none => exact .pure trivial
  | some handle => exact steady_holding (h handle)

theorem steady_make (name : Int) (kind : Kind) (how : Constructor Step) :
    Alike (World.Calm us) Anything (make name kind how) (make name kind how) := by
  unfold make
  cases recipeOf kind how with
  | error cause => exact .pure trivial
  | ok recipe =>
    exact (Alike.update fun _ hw => hw.frame rfl rfl rfl rfl rfl).returning

theorem steady_discardHandle (name : Int) :
    Alike (World.Calm us) Anything (discardHandle name) (discardHandle name) := by
  refine Alike.read.bind fun w hw => ?_
  refine Alike.returning (.write ?_)
  exact hw.frame rfl rfl rfl rfl rfl

theorem steady_duplicateHandle (name target : Int) :
    Alike (World.Calm us) Anything (duplicateHandle name target) (duplicateHandle name target) := by
  refine Alike.read.bind fun w hw => ?_
  cases w.handles.find? name with
  | none => exact .pure trivial
  | some h =>
    refine Alike.returning (.write ?_)
    exact hw.frame rfl rfl rfl rfl rfl

theorem steady_compareHandles (left right : Int) :
    Alike (World.Calm us) Anything (compareHandles left right) (compareHandles left right) := by
  refine Alike.read.bind fun w _ => ?_
  dsimp only
  split
  · exact .pure trivial
  · exact .pure trivial

theorem steady_showAndRelease (hu : u.Steady v) (r : Ref) :
    Alike (World.Calm us) Anything (showAndRelease u r) (showAndRelease v r) := by
  exact (steady_view r).bind fun s _ => (steady_release hu r).returning

theorem steady_bump (hu : u.Steady v) (h : Handle) (hkey : h.identity ∈ us) :
    Alike (World.Calm us) Anything (bump u h) (bump v h) := by
  refine (h.steady_get hu hkey).bind fun r _ => ?_
  refine Alike.read.bind fun w _ => ?_
  refine (steady_release hu r).andThen ?_
  refine (steady_newObject _ _).bind fun r' _ => ?_
  exact (Store.steady_store hu h.kind hkey r').returning

theorem steady_childValue (hu : u.Steady v) (h : Handle) (value : Datum) :
    Alike (World.Calm us) Anything (childValue u h value) (childValue v h value) := by
  refine (steady_newObject value []).bind fun parent _ => ?_
  refine ((h.steady_childValue hu parent).onPanic (steady_release hu parent)).bind ?_
  rintro (_ | child) -
  · exact (steady_release hu parent).returning
  · refine (steady_view child).bind fun s _ => ?_
    exact ((steady_release hu child).ensuring (steady_release hu parent)).returning

theorem steady_hold (hu : u.Steady v) (h : Handle) (hkey : h.identity ∈ us) (name : String) :
    Alike (World.Calm us) Anything (hold u h name) (hold v h name) := by
  refine (h.steady_get hu hkey).bind fun r _ => ?_
  refine (steady_view r).bind fun s _ => ?_
  refine Alike.returning (P := Anything) ?_
  refine Alike.read.bind fun w hw => ?_
  refine Alike.andThen (.write ?_) ?_
  · exact hw.frame rfl rfl rfl rfl rfl
  · exact Alike.option_forM _ fun r' _ => steady_release hu r'

theorem steady_held (name : String) : Alike (World.Calm us) Anything (held name) (held name) := by
  refine Alike.read.bind fun w _ => ?_
  cases w.thread.holds.find? name with
  | none => exact .pure trivial
  | some r => exact (steady_view r).returning

theorem steady_letGo (hu : u.Steady v) (name : String) :
    Alike (World.Calm us) Anything (letGo u name) (letGo v name) := by
  refine Alike.read.bind fun w hw => ?_
  cases w.thread.holds.find? name with
  | none => exact .pure trivial
  | some r =>
    refine Alike.andThen (.write ?_) ?_
    · exact hw.frame rfl rfl rfl rfl rfl
    · exact (steady_release hu r).returning

theorem steady_capture (hu : u.Steady v) (name : String) :
    Alike (World.Calm us) Anything (capture u name) (capture v name) := by
  refine (Inheritance.steady_capture hu).bind fun c hc => ?_
  refine Alike.read.bind fun w hw => ?_
  refine Alike.andThen (.write (hw.set_capture name hc)) ?_
  refine Alike.returning (P := Anything) ?_
  exact Alike.option_forM _ fun old _ => Inheritance.steady_discard hu old

theorem steady_viewCapture (name : String) :
    Alike (World.Calm us) Anything (viewCapture name) (viewCapture name) := by
  refine Alike.read.bind fun w _ => ?_
  cases w.captures.find? name <;> exact .pure trivial

theorem steady_takeCapture (name : String) (missing : Reply) {f g : Inheritance → Action Reply}
    (h : ∀ c : Inheritance, c.Whole → Alike (World.Calm us) Anything (f c) (g c)) :
    Alike (World.Calm us) Anything (takeCapture name missing f) (takeCapture name missing g) := by
  refine Alike.read.bind fun w hw => ?_
  cases hc : w.captures.find? name with
  | none => exact .pure trivial
  | some c => exact Alike.andThen (.write (hw.erase_capture name)) (h c (hw.captures name c hc))

theorem steady_spawn (hu : u.Steady v) {f g : List Step → Action (ThreadReport Reply)}
    (h : ∀ steps, Alike (World.Calm us) Anything (f steps) (g steps)) (how : Spawn) (steps : List Step) :
    Alike (World.Calm us) Anything (spawn u f how steps) (spawn v g how steps) := by
  have hthread (c : Inheritance) (hc : c.Whole) : Alike (World.Calm us) Anything
      (Thread.run do c.install u; f steps) (Thread.run do c.install v; g steps) :=
    Thread.steady_run ((Inheritance.steady_install hu hc).andThen (h steps))
  cases how with
  | plain =>
    refine Alike.bind (P := Inheritance.Whole) (.pure nofun) fun c hc => ?_
    exact (hthread c hc).returning
  | _ =>
    refine (Inheritance.steady_capture hu).bind fun c hc => ?_
    exact (hthread c hc).returning

theorem steady_perform (hu : u.Steady v) {f g : List Step → Action (ThreadReport Reply)}
    (h : ∀ us steps, Alike (World.Calm us) Anything (f steps) (g steps)) (inUserCode : Bool) (step : Step) :
    Alike (World.Calm us) Anything (perform u f inUserCode step) (perform v g inUserCode step) := by
  cases step with
  | make name kind how => exact steady_make name kind how
  | discard name => exact steady_discardHandle name
  | duplicate name target => exact steady_duplicateHandle name target
  | equal left right => exact steady_compareHandles left right
  | describe name => exact steady_withHandle name fun h => h.steady_text.returning
  | get name =>
    refine steady_withHandle name fun h => ?_
    exact (h.steady_get hu List.mem_cons_self).bind fun r _ => steady_showAndRelease hu r
  | tryGet name =>
    refine steady_withHandle name fun h => ?_
    refine (Store.steady_lookup hu h.kind List.mem_cons_self).bind ?_
    rintro (_ | r) -
    · exact .pure trivial
    · exact steady_showAndRelease hu r
  | set name value onDestroy =>
    refine steady_withHandle name fun h => ?_
    refine (steady_newObject value onDestroy).bind fun r _ => ?_
    exact (Store.steady_store hu h.kind List.mem_cons_self r).returning
  | remove name =>
    refine steady_withHandle name fun h => ?_
    exact (Store.steady_erase hu h.kind List.mem_cons_self).returning
  | bump name => exact steady_withHandle name fun h => steady_bump hu h List.mem_cons_self
  | childValue name parent => exact steady_withHandle name fun h => steady_childValue hu h parent
  | hold name target =>
    refine steady_withHandle name fun h => ?_
    cases inUserCode with
    | true => exact .pure trivial
    | false => exact steady_hold hu h List.mem_cons_self target
  | held name =>
    cases inUserCode with
    | true => exact .pure trivial
    | false => exact steady_held name
  | letGo name =>
    cases inUserCode with
    | true => exact .pure trivial
    | false => exact steady_letGo hu name
  | stats => exact (steady_geometry .plain).bind fun _ _ => (steady_geometry .inheritable).returning
  | statsText =>
    exact (steady_geometry .plain).bind fun _ _ => (steady_geometry .inheritable).returning
  | builderText b => exact .pure trivial
  | capture name => exact steady_capture hu name
  | viewCapture name => exact steady_viewCapture name
  | install name =>
    refine steady_takeCapture name _ fun c hc => ?_
    exact (Inheritance.steady_install hu hc).returning
  | discardCapture name =>
    refine steady_takeCapture name _ fun c _ => ?_
    exact (Inheritance.steady_discard hu c).returning
  | spawn how steps => exact steady_spawn hu (h us) how steps

/-! ## Threads and sessions -/

theorem steady_withLog (h : Alike (World.Calm us) P x y) :
    Alike (World.Calm us) (fun r => P r.1) (withLog x) (withLog y) := by
  refine Alike.read.bind fun w _ => ?_
  refine (Alike.update fun _ hw => hw.frame rfl rfl rfl rfl rfl).andThen ?_
  refine h.bind fun a ha => ?_
  refine Alike.read.bind fun w' _ => ?_
  exact (Alike.update fun _ hw => hw.frame rfl rfl rfl rfl rfl).andThen (.pure ha)

theorem steady_sizes (observed : Bool) : Alike (World.Calm us) Anything (sizes observed) (sizes observed) := by
  cases observed with
  | false => exact .pure trivial
  | true => exact (steady_geometry .plain).bind fun _ _ => (steady_geometry .inheritable).returning

theorem steady_reportStep (observed : Bool) {step : Step} (h : Alike (World.Calm us) Anything (p step) (q step)) :
    Alike (World.Calm us) Anything (reportStep observed p step) (reportStep observed q step) := by
  refine (steady_withLog h.attempt).bind fun _ _ => ?_
  exact (steady_sizes observed).returning

theorem steady_closing {c d : Action Unit} (h : Alike (World.Calm us) Anything c d) :
    Alike (World.Calm us) Anything (closing c) (closing d) :=
  (steady_withLog h.noPanic).returning

theorem steady_releaseHolds (hu : u.Steady v) :
    Alike (World.Calm us) Anything (releaseHolds u) (releaseHolds v) := by
  refine Alike.read.bind fun w hw => ?_
  refine Alike.andThen (.write ?_) (steady_releaseAll hu _)
  exact hw.frame rfl rfl rfl rfl rfl

theorem steady_discardCaptures (hu : u.Steady v) (limit : Nat) :
    Alike (World.Calm us) Anything (discardCaptures u limit) (discardCaptures v limit) := by
  induction limit with
  | zero => exact .abort
  | succ limit ih =>
    refine Alike.read.bind fun w hw => ?_
    cases w.captures.first? with
    | none => exact .pure trivial
    | some b =>
      refine Alike.andThen (.write (hw.erase_capture b.1)) ?_
      exact (Inheritance.steady_discard hu b.2).andThen ih

theorem steady_destroyNext (hu : u.Steady v) :
    Alike (World.Calm us) Anything (destroyNext u) (destroyNext v) := by
  refine Alike.read.bind fun w _ => ?_
  cases w.thread.due? with
  | none => exact .pure trivial
  | some kind => exact (steady_closing (Thread.steady_destroy hu kind)).returning

theorem steady_destroyTables (hu : u.Steady v) :
    Alike (World.Calm us) Anything (destroyTables u) (destroyTables v) :=
  (steady_destroyNext hu).bind fun _ _ => (steady_destroyNext hu).returning

theorem steady_runThread (hu : u.Steady v) (observed : Bool)
    (h : ∀ step, Alike (World.Calm us) Anything (p step) (q step)) (hx : Alike (World.Calm us) Anything x y)
    (steps : List Step) :
    Alike (World.Calm us) Anything (runThread u observed p x steps) (runThread v observed q y steps) := by
  refine (Alike.mapM steps fun step _ => steady_reportStep observed (h step)).bind fun _ _ => ?_
  refine (steady_closing (steady_releaseHolds hu)).bind fun _ _ => ?_
  refine hx.bind fun _ _ => ?_
  exact (steady_destroyTables hu).returning

end PerThread.Script
