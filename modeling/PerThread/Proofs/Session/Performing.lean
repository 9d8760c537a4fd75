import PerThread.Proofs.Session.Moment
import PerThread.Proofs.Session.Operations

/-!
# Scripts proceed

User code that performs steps is tame if the steps are; a step is tame if the user code is, and if the threads that
it may start come to their ends without a panic. So all steps are tame, at any depth of nesting, also with a
look-out that stops the session in the state it sees. The steps of a thread, and what follows them, proceed as far
as that thread may end.
-/

namespace PerThread

open Action (Proceeds Tame Fresh)

variable {n : Nat} {w : World} {u : UserCode} {α β : Type}

/-! ## Computations that do not panic -/

/-- From no state does the computation panic. It may abort. -/
def Exec.NeverPanics {σ : Type} (x : Exec σ α) : Prop := ∀ s message s', x s ≠ .error (.panic message) s'

namespace Exec.NeverPanics

variable {σ : Type} {x : Exec σ α}

/-- What ends with a result does not panic. -/
theorem of_ok (h : ∀ s, ∃ a s', x s = .ok a s') : NeverPanics x := by
  intro s message s' hpanic
  obtain ⟨a, s₁, hok⟩ := h s
  rw [hok] at hpanic
  cases hpanic

theorem pure (a : α) : NeverPanics (Pure.pure a : Exec σ α) := of_ok fun s => ⟨a, s, rfl⟩

theorem read : NeverPanics (get : Exec σ σ) := of_ok fun s => ⟨s, s, rfl⟩

theorem update (f : σ → σ) : NeverPanics (modify f : Exec σ PUnit) := of_ok fun s => ⟨⟨⟩, f s, rfl⟩

theorem bind {f : α → Exec σ β} (hx : NeverPanics x) (hf : ∀ a, NeverPanics (f a)) : NeverPanics (x >>= f) := by
  intro s message s' h
  change EStateM.bind x f s = _ at h
  unfold EStateM.bind at h
  rcases hrun : x s with ⟨a, s₁⟩ | ⟨i, s₁⟩
  · rw [hrun] at h
    exact hf a s₁ message s' h
  · rw [hrun] at h
    cases h
    exact hx s message s' hrun

theorem attempt (x : Exec σ α) : NeverPanics (Exec.attempt x) := by
  intro s message s' h
  unfold Exec.attempt at h
  rcases hrun : x s with ⟨a, s₁⟩ | ⟨_ | _, s₁⟩ <;> rw [hrun] at h <;> cases h

theorem noPanic (x : Exec σ α) : NeverPanics (Exec.noPanic x) := by
  refine (attempt x).bind ?_
  rintro (_ | a)
  · exact nofun
  · exact pure a

theorem mapM {ι : Type} {f : ι → Exec σ α} (h : ∀ i, NeverPanics (f i)) (l : List ι) : NeverPanics (l.mapM f) := by
  induction l with
  | nil => exact pure []
  | cons i rest ih =>
    rw [List.mapM_cons]
    exact (h i).bind fun _ => ih.bind fun _ => pure _

end Exec.NeverPanics

open Exec (NeverPanics)

namespace Script

open Action

variable {p : Step → Action Reply} {x : Action α} {P : α → World → Prop}

/-! ## User code given by scripts -/

theorem tame_performAll (h : ∀ step, Tame n (p step)) (steps : List Step) : Tame n (performAll p steps) := by
  induction steps with
  | nil => exact fun _ => .pure trivial
  | cons step rest ih =>
    intro w
    refine (h step w).bind fun reply w₁ _ _ => ?_
    exact (tame_report _ w₁).andThen fun w₂ _ => ih w₂

theorem tame_variableOf (key : Identity) : Tame n (variableOf key) := by
  intro w
  refine .read ?_
  cases w.variableOf? key with
  | none => exact .abort
  | some x => exact .pure trivial

theorem tame_countCall (key : Identity) : Tame n (countCall key) := by
  refine tame_quietly (fun w => ?_) fun _ => rfl
  refine ⟨rfl, ?_, rfl, rfl, fun _ => rfl, fun _ _ h => h⟩
  refine Array.ext (by simp) fun i h₁ h₂ => ?_
  simp only [Array.getElem_map, Array.getElem_modify]
  split <;> rfl

theorem proceeds_callInitializer (h : ∀ step, Tame n (p step)) (name : Int) (call : Nat) (i : Initializer Step)
    (w : World) : Proceeds n (callInitializer p name call i) w Fresh := by
  have hmake (w : World) : Proceeds n (newObject (i.valueAt call) i.onDestroy) w Fresh := proceeds_newObject _ _ w
  have hbody {y : Action Ref} (hy : ∀ w, Proceeds n y w Fresh) (w : World) :
      Proceeds n
        (do
          if withinCalls i.bodyCalls call then performAll p i.body
          y) w Fresh := by
    by_cases hcall : withinCalls i.bodyCalls call = true
    · simp only [hcall, if_true]
      exact (tame_performAll h i.body w).andThen fun w' _ => hy w'
    · simp only [hcall]
      exact hy w
  unfold callInitializer
  refine (tame_report _ w).andThen fun w₁ _ => ?_
  cases i.panic with
  | none => exact hbody hmake w₁
  | some message =>
    by_cases hcall : withinCalls i.panicCalls call = true
    · simp only [hcall, if_true]
      exact hbody (fun w => (Proceeds.panic (P := Fresh) message).bind fun _ w' _ _ => hmake w') w₁
    · simp only [hcall]
      exact hbody hmake w₁

theorem proceeds_construct (h : ∀ step, Tame n (p step)) (key : Identity) (w : World) :
    Proceeds n (construct p key) w Fresh := by
  refine (tame_variableOf key w).bind fun x w₁ _ _ => ?_
  refine (tame_countCall key w₁).andThen fun w₂ _ => ?_
  cases x.recipe.initializer with
  | blank => exact proceeds_newObject _ _ w₂
  | scripted i => exact proceeds_callInitializer h x.name x.calls i w₂

theorem proceeds_derive (h : ∀ step, Tame n (p step)) (key : Identity) (parent : Ref) (w : World) :
    Proceeds n (derive p key parent) w Fresh := by
  refine (tame_variableOf key w).bind fun x w₁ _ _ => ?_
  cases x.recipe.derivation with
  | none => exact .abort
  | some d =>
    refine (tame_report _ w₁).andThen fun w₂ _ => ?_
    refine (tame_performAll h d.body w₂).andThen fun w₃ _ => ?_
    have hmake (w : World) : Proceeds n (do newObject (d.valueFor ((← get).object parent).value) d.onDestroy) w Fresh :=
      .read (proceeds_newObject _ _ w)
    cases d.panic with
    | none => exact hmake w₃
    | some message => exact (Proceeds.panic (P := Fresh) message).bind fun _ w₄ _ _ => hmake w₄

theorem tame_finalize (h : ∀ step, Tame n (p step)) (r : Ref) : Tame n (finalize p r) := by
  intro w
  refine .read ?_
  exact (tame_report _ w).andThen fun w₁ _ => tame_performAll h _ w₁

theorem tame_userCode (h : ∀ step, Tame n (p step)) : (userCode p).Tame n where
  construct := proceeds_construct h
  derive := proceeds_derive h
  finalize := tame_finalize h

/-! ## Steps -/

theorem tame_withHandle (name : Int) {f : Handle → Action Reply}
    (h : ∀ (h : Handle) w, h.identity ∈ w.inUse → Proceeds n (f h) w fun _ _ => True) :
    Tame n (withHandle name f) := by
  intro w
  refine .read ?_
  cases w.handles.find? name with
  | none => exact .pure trivial
  | some handle => exact proceeds_holding (h handle _ List.mem_cons_self) fun _ _ h => h

theorem tame_make (name : Int) (kind : Kind) (how : Constructor Step) : Tame n (make name kind how) := by
  intro w
  unfold make
  cases recipeOf kind how with
  | error cause => exact .pure trivial
  | ok recipe => exact (Proceeds.update (.change (.create name kind recipe) rfl rfl)).returning

/-- A write that concerns no table, no thread and no identity. -/
theorem tame_write {w' : World} {y : Action α} (h : w.Quiet w') (huse : w'.inUse = w.inUse) (hy : Tame n y) :
    Proceeds n (do set w'; y) w fun _ _ => True :=
  (Proceeds.write (.quiet h huse)).andThen fun w₁ _ => hy w₁

theorem tame_discardHandle (name : Int) : Tame n (discardHandle name) := by
  intro w
  refine .read (tame_write ?_ rfl fun _ => .pure trivial)
  exact .of_eq rfl rfl rfl rfl rfl rfl rfl

theorem tame_duplicateHandle (name target : Int) : Tame n (duplicateHandle name target) := by
  intro w
  refine .read ?_
  cases w.handles.find? name with
  | none => exact .pure trivial
  | some h =>
    refine tame_write ?_ rfl fun _ => .pure trivial
    exact .of_eq rfl rfl rfl rfl rfl rfl rfl

theorem tame_compareHandles (left right : Int) : Tame n (compareHandles left right) := by
  intro w
  refine .read ?_
  dsimp only
  split
  · exact .pure trivial
  · exact .pure trivial

theorem tame_showAndRelease (hu : u.Tame n) (r : Ref) : Tame n (showAndRelease u r) := by
  intro w
  refine (tame_view r w).bind fun s w₁ _ _ => ?_
  exact (tame_release hu r w₁).andThen fun _ _ => .pure trivial

theorem proceeds_bump (hu : u.Tame n) (h : Handle) (hkey : h.identity ∈ w.inUse) :
    Proceeds n (bump u h) w fun _ _ => True := by
  refine (h.proceeds_get hu hkey).bind fun r w₁ hs₁ _ => ?_
  refine .read ?_
  refine (tame_release hu r w₁).andThen fun w₂ hs₂ => ?_
  refine (proceeds_newObject _ _ w₂).bind fun r' w₃ hs₃ hr => ?_
  have hstore := Store.proceeds_store hu h.kind (hs₃.mem_inUse (hs₂.mem_inUse (hs₁.mem_inUse hkey))) hr.lt
  exact hstore.andThen fun _ _ => .pure trivial

theorem tame_childValue (hu : u.Tame n) (h : Handle) (value : Datum) : Tame n (childValue u h value) := by
  intro w
  refine (proceeds_newObject value [] w).bind fun parent w₁ _ hr => ?_
  refine ((h.proceeds_childValue hu hr.lt).onPanic (tame_release hu parent)).bind ?_
  rintro (_ | child) w₂ _ _
  · exact (tame_release hu parent w₂).andThen fun _ _ => .pure trivial
  · refine (tame_view child w₂).bind fun s w₃ _ _ => ?_
    exact ((tame_release hu child w₃).ensuring (tame_release hu parent)).andThen fun _ _ => .pure trivial

theorem tame_keep (hu : u.Tame n) (name : String) (r : Ref) : Tame n (keep u name r) := by
  intro w
  refine .read (tame_write ?_ rfl (Tame.option_forM (tame_release hu) _))
  exact .of_eq rfl rfl rfl rfl rfl rfl rfl

theorem proceeds_hold (hu : u.Tame n) (h : Handle) (hkey : h.identity ∈ w.inUse) (name : String) :
    Proceeds n (hold u h name) w fun _ _ => True := by
  refine (h.proceeds_get hu hkey).bind fun r w₁ _ _ => ?_
  refine (tame_view r w₁).bind fun s w₂ _ _ => ?_
  exact (tame_keep hu name r w₂).andThen fun _ _ => .pure trivial

theorem tame_held (name : String) : Tame n (held name) := by
  intro w
  refine .read ?_
  cases w.thread.holds.find? name with
  | none => exact .pure trivial
  | some r => exact (tame_view r w).returning

theorem tame_letGo (hu : u.Tame n) (name : String) : Tame n (letGo u name) := by
  intro w
  refine .read ?_
  cases w.thread.holds.find? name with
  | none => exact .pure trivial
  | some r =>
    refine tame_write ?_ rfl fun w₁ => (tame_release hu r w₁).andThen fun _ _ => .pure trivial
    exact .of_eq rfl rfl rfl rfl rfl rfl rfl

theorem tame_capture (hu : u.Tame n) (name : String) : Tame n (capture u name) := by
  intro w
  refine (Inheritance.proceeds_capture hu w).bind fun c w₁ _ hc => ?_
  refine .read ?_
  refine (Proceeds.write (.change (.capture name hc.1 hc.2) rfl rfl)).andThen fun w₂ _ => ?_
  exact (Tame.option_forM (Inheritance.tame_discard hu) _ w₂).andThen fun _ _ => .pure trivial

theorem tame_viewCapture (name : String) : Tame n (viewCapture name) := by
  intro w
  refine .read ?_
  cases w.captures.find? name with
  | none => exact .pure trivial
  | some c => exact .pure trivial

theorem tame_takeCapture (name : String) (missing : Reply) {f : Inheritance → Action Reply}
    (h : ∀ (c : Inheritance) w, c.Fit w → Proceeds n (f c) w fun _ _ => True) :
    Tame n (takeCapture name missing f) := by
  intro w
  refine .read ?_
  cases hc : w.captures.find? name with
  | none => exact .pure trivial
  | some c =>
    refine .known fun hw => ?_
    refine (Proceeds.write (.quiet (.erase_capture w name) rfl)).andThen fun w₁ hs₁ => h c w₁ ⟨?_, ?_⟩
    · exact hw.captures name c hc
    · exact fun r hr => hs₁.lt_size (hw.bounded r (.captured name c hc hr))

/-- The steps of a thread, and all that follows them: it may end, and does not panic. -/
structure Ending (n : Nat) (run : List Step → Action (ThreadReport Reply)) : Prop where
  proceeds : ∀ steps w, n ≤ w.waiting.length → Proceeds n (run steps) w fun _ _ => True
  neverPanics : ∀ steps, NeverPanics (run steps)

theorem install_start (c : Inheritance) (h : w.thread = .start) : ∃ w', c.install u w = .ok () w' := by
  obtain ⟨_ | t⟩ := c
  · exact ⟨w, rfl⟩
  · obtain ⟨_, _, _, _, _, _, _, _, _⟩ := w
    cases h
    exact ⟨_, rfl⟩

theorem tame_spawn (hu : u.Tame n) {run : List Step → Action (ThreadReport Reply)} (hrun : Ending n run) (how : Spawn)
    (steps : List Step) : Tame n (spawn u run how steps) := by
  have hthread (c : Inheritance) (w : World) (hn : n ≤ w.waiting.length + 1) (hc : c.Fit w) :
      Proceeds n (Thread.run do c.install u; run steps) w fun _ _ => True := by
    have hstart : c.Fit { w with waiting := w.thread :: w.waiting, thread := .start } := hc
    refine Thread.proceeds_run ((Inheritance.proceeds_install hu hstart).andThen fun w₁ hs₁ => ?_) ?_
    · exact hrun.proceeds steps w₁ (by rw [hs₁.waiting_eq]; exact hn)
    · intro message w' hpanic
      obtain ⟨w₁, hinstall⟩ := install_start (u := u) (w := { w with waiting := w.thread :: w.waiting, thread := .start })
        c rfl
      rw [Exec.bind_of_ok hinstall] at hpanic
      exact hrun.neverPanics steps w₁ message w' hpanic
  intro w hw hn
  have hfrom (x : Action Inheritance) (hx : Proceeds n x w Inheritance.Fit) (name : Option String) :
      Proceeds n (do
        let inherited ← x
        let r ← Thread.run do
          inherited.install u
          run steps
        return Reply.thread name r) w fun _ _ => True := by
    refine hx.bind fun c w₁ hs₁ hc => ?_
    exact (hthread c w₁ (by rwa [hs₁.waiting_eq]) hc).bind fun _ _ _ _ => .pure trivial
  cases how with
  | plain => exact hfrom _ (.pure (Inheritance.fit_nothing w)) none hw hn
  | inheriting => exact hfrom _ (Inheritance.proceeds_capture hu w) none hw hn
  | named name => exact hfrom _ (Inheritance.proceeds_capture hu w) (some name) hw hn

theorem tame_perform (hu : u.Tame n) {run : List Step → Action (ThreadReport Reply)} (hrun : Ending n run)
    (inUserCode : Bool) (step : Step) : Tame n (perform u run inUserCode step) := by
  cases step with
  | make name kind how => exact tame_make name kind how
  | discard name => exact tame_discardHandle name
  | duplicate name target => exact tame_duplicateHandle name target
  | equal left right => exact tame_compareHandles left right
  | describe name => exact tame_withHandle name fun h w _ => (h.tame_text w).returning
  | get name =>
    refine tame_withHandle name fun h w hkey => ?_
    exact (h.proceeds_get hu hkey).bind fun r w₁ _ _ => tame_showAndRelease hu r w₁
  | tryGet name =>
    refine tame_withHandle name fun h w hkey => ?_
    refine (Store.proceeds_lookup hu h.kind hkey).bind ?_
    rintro (_ | r) w₁ _ _
    · exact .pure trivial
    · exact tame_showAndRelease hu r w₁
  | set name value onDestroy =>
    refine tame_withHandle name fun h w hkey => ?_
    refine (proceeds_newObject value onDestroy w).bind fun r w₁ hs₁ hr => ?_
    exact (Store.proceeds_store hu h.kind (hs₁.mem_inUse hkey) hr.lt).andThen fun _ _ => .pure trivial
  | remove name =>
    refine tame_withHandle name fun h w hkey => ?_
    exact (Store.proceeds_erase hu h.kind hkey).andThen fun _ _ => .pure trivial
  | bump name => exact tame_withHandle name fun h w hkey => proceeds_bump hu h hkey
  | childValue name parent => exact tame_withHandle name fun h w _ => tame_childValue hu h parent w
  | hold name target =>
    refine tame_withHandle name fun h w hkey => ?_
    cases inUserCode with
    | true => exact .pure trivial
    | false => exact proceeds_hold hu h hkey target
  | held name =>
    cases inUserCode with
    | true => exact fun _ => .pure trivial
    | false => exact tame_held name
  | letGo name =>
    cases inUserCode with
    | true => exact fun _ => .pure trivial
    | false => exact tame_letGo hu name
  | stats => exact fun w => (tame_geometry .plain w).bind fun _ w₁ _ _ => (tame_geometry .inheritable w₁).returning
  | statsText => exact fun w => (tame_geometry .plain w).bind fun _ w₁ _ _ => (tame_geometry .inheritable w₁).returning
  | builderText b => exact fun _ => .pure trivial
  | capture name => exact tame_capture hu name
  | viewCapture name => exact tame_viewCapture name
  | install name =>
    refine tame_takeCapture name _ fun c w hc => ?_
    exact (Inheritance.proceeds_install hu hc).andThen fun _ _ => .pure trivial
  | discardCapture name =>
    refine tame_takeCapture name _ fun c w _ => ?_
    exact (Inheritance.tame_discard hu c w).andThen fun _ _ => .pure trivial
  | spawn how steps => exact tame_spawn hu hrun how steps

/-! ## Threads and sessions -/

theorem proceeds_withLog (h : ∀ w', w.Since n w' → Proceeds n x w' P) : Proceeds n (withLog x) w fun _ _ => True := by
  refine .read ?_
  refine (tame_quietly (fun w => .log w #[]) (fun _ => rfl) w).andThen fun w₁ hs₁ => ?_
  refine (h w₁ hs₁).bind fun a w₂ _ _ => ?_
  refine .read ?_
  exact (tame_quietly (fun w' => .log w' w.log) (fun _ => rfl) w₂).andThen fun _ _ => .pure trivial

theorem tame_sizes (observed : Bool) : Tame n (sizes observed) := by
  intro w
  cases observed with
  | false => exact .pure trivial
  | true => exact (tame_geometry .plain w).bind fun _ w₁ _ _ => (tame_geometry .inheritable w₁).returning

theorem tame_reportStep (observed : Bool) {step : Step} (h : Tame n (p step)) : Tame n (reportStep observed p step) := by
  intro w
  refine (proceeds_withLog fun w' _ => (h w').attempt).bind fun _ w₁ _ _ => ?_
  exact (tame_sizes observed w₁).bind fun _ _ _ _ => .pure trivial

theorem proceeds_closing {c : Action Unit} (h : ∀ w', w.Since n w' → Proceeds n c w' fun _ _ => True) :
    Proceeds n (closing c) w fun _ _ => True :=
  (proceeds_withLog fun w' hs => (h w' hs).noPanic).bind fun _ _ _ _ => .pure trivial

theorem tame_releaseHolds (hu : u.Tame n) : Tame n (releaseHolds u) := by
  intro w
  refine .read (tame_write ?_ rfl (tame_releaseAll hu _))
  exact .of_eq rfl rfl rfl rfl rfl rfl rfl

theorem tame_discardCaptures (hu : u.Tame n) (limit : Nat) : Tame n (discardCaptures u limit) := by
  induction limit with
  | zero => exact fun _ => .abort
  | succ limit ih =>
    intro w
    refine .read ?_
    cases w.captures.first? with
    | none => exact .pure trivial
    | some b =>
      refine tame_write (.erase_capture w b.1) rfl fun w₁ => ?_
      exact (Inheritance.tame_discard hu b.2 w₁).andThen fun w₂ _ => ih w₂

theorem proceeds_destroyNext (hu : u.Tame n) (hn : n ≤ w.waiting.length) :
    Proceeds n (destroyNext u) w fun _ _ => True := by
  refine .read ?_
  cases w.thread.due? with
  | none => exact .pure trivial
  | some kind =>
    refine (proceeds_closing fun w' hs => Thread.proceeds_destroy hu kind ?_).bind fun _ _ _ _ => .pure trivial
    rwa [hs.waiting_eq]

theorem proceeds_destroyTables (hu : u.Tame n) (hn : n ≤ w.waiting.length) :
    Proceeds n (destroyTables u) w fun _ _ => True := by
  refine (proceeds_destroyNext hu hn).bind fun _ w₁ hs _ => ?_
  refine (proceeds_destroyNext hu ?_).bind fun _ _ _ _ => .pure trivial
  rwa [hs.waiting_eq]

theorem proceeds_runThread (hu : u.Tame n) (observed : Bool) (h : ∀ step, Tame n (p step)) (hx : Tame n x)
    (steps : List Step) (hn : n ≤ w.waiting.length) :
    Proceeds n (runThread u observed p x steps) w fun _ _ => True := by
  refine (Tame.mapM (fun step => tame_reportStep observed (h step)) steps w).bind fun _ w₁ hs₁ _ => ?_
  refine (proceeds_closing fun w' _ => tame_releaseHolds hu w').bind fun _ w₂ hs₂ _ => ?_
  refine (hx w₂).bind fun _ w₃ hs₃ _ => ?_
  refine (proceeds_destroyTables hu ?_).bind fun _ _ _ _ => .pure trivial
  rwa [hs₃.waiting_eq, hs₂.waiting_eq, hs₁.waiting_eq]

theorem neverPanics_withLog (h : NeverPanics x) : NeverPanics (withLog x) := by
  refine NeverPanics.bind .read fun _ => NeverPanics.bind (.update _) fun _ => h.bind fun _ => ?_
  exact NeverPanics.bind .read fun _ => NeverPanics.bind (.update _) fun _ => .pure _

theorem neverPanics_closing (c : Action Unit) : NeverPanics (closing c) :=
  (neverPanics_withLog (.noPanic c)).bind fun _ => .pure _

theorem neverPanics_reportStep (observed : Bool) (p : Step → Action Reply) (step : Step) :
    NeverPanics (reportStep observed p step) := by
  have hsizes : NeverPanics (sizes observed) := by
    cases observed with
    | false => exact .pure _
    | true => exact .of_ok fun w => ⟨_, _, rfl⟩
  exact (neverPanics_withLog (.attempt _)).bind fun _ => hsizes.bind fun _ => .pure _

theorem neverPanics_destroyNext (u : UserCode) : NeverPanics (destroyNext u) := by
  refine NeverPanics.bind .read fun w => ?_
  cases w.thread.due? with
  | none => exact .pure _
  | some kind => exact (neverPanics_closing _).bind fun _ => .pure _

theorem neverPanics_runThread (observed : Bool) (hx : NeverPanics x) (steps : List Step) :
    NeverPanics (runThread u observed p x steps) := by
  refine NeverPanics.bind (.mapM (neverPanics_reportStep observed p) steps) fun _ => ?_
  refine (neverPanics_closing _).bind fun _ => hx.bind fun _ => NeverPanics.bind ?_ fun _ => .pure _
  exact (neverPanics_destroyNext u).bind fun _ => (neverPanics_destroyNext u).bind fun _ => .pure _

/-! ## Look-outs -/

/-- A look-out that stops the session where it is. -/
def halt (sought : World → Bool) (w : World) : Option World := if sought w then some w else none

theorem proceeds_watched (sought : World → Bool) (h : Proceeds n x w P) :
    Proceeds n (x.watched (halt sought)) w P := by
  intro hw hn
  have ho := h hw hn
  unfold Action.watched halt
  by_cases hstop : sought w = true
  · simp only [hstop, if_true]
    exact Relation.ReflTransGen.refl
  · simp only [hstop]
    rcases hrun : x w with ⟨a, w'⟩ | ⟨message | _, w'⟩
    · rw [hrun] at ho
      by_cases hstop' : sought w' = true
      · simp only [hstop', if_true]
        exact ho.1.course
      · simp only [hstop']
        exact ho
    · rw [hrun] at ho
      by_cases hstop' : sought w' = true
      · simp only [hstop', if_true]
        exact World.Since.course ho
      · simp only [hstop']
        exact ho
    · rw [hrun] at ho
      exact ho

theorem tame_watched (sought : World → Bool) (hu : u.Tame n) : (u.watched (halt sought)).Tame n where
  construct key w := proceeds_watched sought (hu.construct key w)
  derive key parent w := proceeds_watched sought (hu.derive key parent w)
  finalize r w := proceeds_watched sought (hu.finalize r w)

/-- Steps take a course of elementary changes, at any depth. -/
theorem tame_performWatched (observed : Bool) (sought : World → Bool) (depth : Nat) (inUserCode : Bool) (step : Step) :
    Tame n (performWatched observed (halt sought) depth inUserCode step) := by
  induction depth generalizing inUserCode step with
  | zero => exact fun _ => .abort
  | succ depth ih =>
    have hu := tame_watched sought (tame_userCode (ih true))
    refine fun w => proceeds_watched sought (tame_perform hu ⟨fun steps w hn => ?_, fun steps => ?_⟩ inUserCode step w)
    · exact (proceeds_runThread hu observed (ih false) (fun _ => .pure trivial) steps hn).bind fun _ _ _ _ => .pure trivial
    · exact (neverPanics_runThread observed (.pure ()) steps).bind fun _ => .pure _

/-- The user code of a session, nested at most `depth` deep, with a look-out. -/
def watchedCode (observed : Bool) (sought : World → Bool) (depth : Nat) : UserCode :=
  (userCode (performWatched observed (halt sought) depth true)).watched (halt sought)

theorem tame_watchedCode (observed : Bool) (sought : World → Bool) (depth : Nat) :
    (watchedCode observed sought depth).Tame n :=
  tame_watched sought (tame_userCode (tame_performWatched observed sought depth true))

/-- A session takes a course of elementary changes. -/
theorem course_session {observed : Bool} {sought : World → Bool} {depth limit : Nat} {steps : List Step} {w' : World}
    (hw : w.Good) (h : Exec.Ends (sessionWatched observed (halt sought) depth limit steps) w w') : w.Course 0 w' := by
  have hu := tame_watchedCode (n := 0) observed sought depth
  have hclosing : Tame 0 (closing (discardCaptures (watchedCode observed sought depth) limit)) :=
    fun _ => proceeds_closing fun w' _ => tame_discardCaptures hu limit w'
  have hrun := proceeds_runThread hu observed (tame_performWatched observed sought depth false) hclosing steps
    (Nat.zero_le w.waiting.length)
  have hsession := hrun.returning (f := fun r => SessionReport.mk r.1 r.2)
  exact hsession.course hw (Nat.zero_le _) h

end Script

end PerThread
