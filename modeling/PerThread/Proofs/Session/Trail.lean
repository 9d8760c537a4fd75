import Mathlib.Logic.Relation
import PerThread.Action

/-!
# What an operation owes to user code

Between two calls of user code an operation may count references, write to the log, and note what is in use;
states that differ in no more are `Unmoved`. A `Trail` leads from one state to another by such changes and by
calls of derivations and of the ends of values. An operation is `Guided` if it never leaves such trails, and if
it comes to no end only where one of these calls came to none.
-/

namespace PerThread

variable {α β : Type} {u : UserCode} {w w₁ w₂ : World} {x : Action α} {c : Action Unit}

/-- Reference counts, the log, the identities in use and the mark of the first use may differ. -/
structure World.Unmoved (w w' : World) : Prop where
  nextCode_eq : w'.nextCode = w.nextCode
  catalog_eq : w'.catalog = w.catalog
  handles_eq : w'.handles = w.handles
  captures_eq : w'.captures = w.captures
  waiting_eq : w'.waiting = w.waiting
  plain_eq : w'.thread.plain = w.thread.plain
  inheritable_eq : w'.thread.inheritable = w.thread.inheritable
  holds_eq : w'.thread.holds = w.thread.holds
  value_eq : ∀ r, (w'.object r).value = (w.object r).value
  onDestroy_eq : ∀ r, (w'.object r).onDestroy = (w.object r).onDestroy

/-- The computation ends in `s'`, one way or another. -/
def Exec.Ends {σ : Type} (x : Exec σ α) (s s' : σ) : Prop :=
  (∃ a, x s = .ok a s') ∨ ∃ i, x s = .error i s'

namespace UserCode

inductive Move (u : UserCode) (w w' : World) : Prop
  | own (h : w.Unmoved w')
  | derive (key : Identity) (parent : Ref) (h : Exec.Ends (u.derive key parent) w w')
  | finalize (r : Ref) (h : Exec.Ends (u.finalize r) w w')

def Trail (u : UserCode) : World → World → Prop := Relation.ReflTransGen u.Move

/-- A call on a trail from `w` is interrupted. -/
def Fails (u : UserCode) (w : World) : Prop :=
  ∃ q, u.Trail w q ∧ ((∃ key parent i q', u.derive key parent q = .error i q') ∨
    ∃ r i q', u.finalize r q = .error i q')

theorem Trail.own (h : w.Unmoved w₁) : u.Trail w w₁ := Relation.ReflTransGen.single (.own h)

theorem Fails.after (h : u.Fails w₁) (htrail : u.Trail w w₁) : u.Fails w := by
  obtain ⟨q, hq, hcall⟩ := h
  exact ⟨q, htrail.trans hq, hcall⟩

/-- What is asked of an outcome, from `w` on. -/
def Leads (u : UserCode) (w : World) : EStateM.Result Interrupt World α → Prop
  | .ok _ w' => u.Trail w w'
  | .error _ w' => u.Trail w w' ∧ u.Fails w

def Guided (u : UserCode) (x : Action α) : Prop := ∀ w, u.Leads w (x w)

end UserCode

theorem UserCode.Leads.after {r : EStateM.Result Interrupt World α} (h : u.Leads w₁ r) (htrail : u.Trail w w₁) :
    u.Leads w r := by
  cases r with
  | ok a w₂ => exact htrail.trans h
  | error i w₂ => exact ⟨htrail.trans h.1, h.2.after htrail⟩

/-! ## States that differ in counts only -/

namespace World

theorem Unmoved.of_objects (hcode : w₁.nextCode = w.nextCode) (hcatalog : w₁.catalog = w.catalog)
    (hhandles : w₁.handles = w.handles) (hcaptures : w₁.captures = w.captures)
    (hwaiting : w₁.waiting = w.waiting) (hplain : w₁.thread.plain = w.thread.plain)
    (hinheritable : w₁.thread.inheritable = w.thread.inheritable) (hholds : w₁.thread.holds = w.thread.holds)
    (hobjects : w₁.objects = w.objects) : w.Unmoved w₁ :=
  ⟨hcode, hcatalog, hhandles, hcaptures, hwaiting, hplain, hinheritable, hholds,
    fun r => by rw [object, hobjects, object], fun r => by rw [object, hobjects, object]⟩

theorem object_recount (w : World) (r other : Ref) (f : Nat → Nat) :
    ((w.recount r f).object other).value = (w.object other).value ∧
      ((w.recount r f).object other).onDestroy = (w.object other).onDestroy := by
  simp only [recount, object, Array.getD_eq_getD_getElem?, Array.getElem?_modify]
  by_cases hr : r = other
  · subst hr
    cases w.objects[r]? <;> simp
  · simp [hr]

theorem unmoved_recount (w : World) (r : Ref) (f : Nat → Nat) : w.Unmoved (w.recount r f) :=
  ⟨rfl, rfl, rfl, rfl, rfl, rfl, rfl, rfl, fun other => (w.object_recount r other f).1,
    fun other => (w.object_recount r other f).2⟩

end World

/-! ## Guided programs -/

namespace UserCode.Guided

theorem pure (a : α) : u.Guided (Pure.pure a) := fun _ => Relation.ReflTransGen.refl

theorem read : u.Guided get := fun _ => Relation.ReflTransGen.refl

theorem update {f : World → World} (h : ∀ w : World, w.Unmoved (f w)) : u.Guided (modify f) :=
  fun w => Trail.own (h w)

theorem bind {f : α → Action β} (hx : u.Guided x) (hf : ∀ a, u.Guided (f a)) : u.Guided (x >>= f) := by
  intro w
  have hw := hx w
  show u.Leads w (EStateM.bind x f w)
  unfold EStateM.bind
  cases hend : x w with
  | ok a w₁ =>
    rw [hend] at hw
    exact (hf a w₁).after hw
  | error i w₁ =>
    rw [hend] at hw
    exact hw

/-- What failed has failed, whether or not the cleanup comes to its end. -/
theorem resume (hc : u.Guided c) (hfail : u.Trail w w₁ ∧ u.Fails w) (message : String) :
    u.Leads w ((Exec.resume message c : Action α) w₁) := by
  have hw₁ := hc w₁
  rw [Exec.resume_run]
  cases hend : c w₁ with
  | ok _ w₂ =>
    rw [hend] at hw₁
    exact ⟨hfail.1.trans hw₁, hfail.2⟩
  | error i w₂ =>
    rw [hend] at hw₁
    exact ⟨hfail.1.trans hw₁.1, hfail.2⟩

theorem onPanic (hx : u.Guided x) (hc : u.Guided c) : u.Guided (Exec.onPanic x c) := by
  intro w
  have hw := hx w
  rw [Exec.onPanic_run]
  rcases hend : x w with ⟨a, w₁⟩ | ⟨message | _, w₁⟩
  · rw [hend] at hw
    exact hw
  · rw [hend] at hw
    exact hc.resume hw message
  · rw [hend] at hw
    exact hw

theorem ensuring (hx : u.Guided x) (hc : u.Guided c) : u.Guided (Exec.ensuring x c) := by
  intro w
  have hw := hx w
  rw [Exec.ensuring_run]
  rcases hend : x w with ⟨a, w₁⟩ | ⟨message | _, w₁⟩
  · rw [hend] at hw
    exact (hc.bind (fun _ => pure a) w₁).after hw
  · rw [hend] at hw
    exact hc.resume hw message
  · rw [hend] at hw
    exact hw

theorem forM {ι : Type} {f : ι → Action PUnit} (h : ∀ i, u.Guided (f i)) (l : List ι) :
    u.Guided (l.forM f) := by
  induction l with
  | nil => exact pure _
  | cons i rest ih => exact (h i).bind fun _ => ih

/-! ## Elementary actions -/

theorem derive (key : Identity) (parent : Ref) : u.Guided (u.derive key parent) := by
  intro w
  rcases hend : u.derive key parent w with ⟨r, w'⟩ | ⟨i, w'⟩
  · exact Relation.ReflTransGen.single (.derive key parent (Or.inl ⟨r, hend⟩))
  · refine ⟨Relation.ReflTransGen.single (.derive key parent (Or.inr ⟨i, hend⟩)), ?_⟩
    exact ⟨w, Relation.ReflTransGen.refl, Or.inl ⟨key, parent, i, w', hend⟩⟩

theorem finalize (r : Ref) : u.Guided (u.finalize r) := by
  intro w
  rcases hend : u.finalize r w with ⟨_, w'⟩ | ⟨i, w'⟩
  · exact Relation.ReflTransGen.single (.finalize r (Or.inl ⟨_, hend⟩))
  · refine ⟨Relation.ReflTransGen.single (.finalize r (Or.inr ⟨i, hend⟩)), ?_⟩
    exact ⟨w, Relation.ReflTransGen.refl, Or.inr ⟨r, i, w', hend⟩⟩

theorem report (e : LogEntry Reply) : u.Guided (Action.report e) :=
  update fun _ => .of_objects rfl rfl rfl rfl rfl rfl rfl rfl rfl

theorem retain (r : Ref) : u.Guided (Action.retain r) := update fun w => w.unmoved_recount r _

theorem release (r : Ref) : u.Guided (Action.release u r) := by
  refine (update fun w => w.unmoved_recount r _).bind fun _ => ?_
  refine read.bind fun w => ?_
  by_cases hzero : (w.object r).refs = 0
  · rw [if_pos hzero]
    exact finalize r
  · rw [if_neg hzero]
    exact pure _

theorem releaseAll (rs : List Ref) : u.Guided (Action.releaseAll u rs) := by
  induction rs with
  | nil => exact pure _
  | cons r rest ih => exact (release r).ensuring ih

theorem slot (kind : Kind) : u.Guided (Action.slot kind) := by
  refine Guided.bind (update fun w => ?_) fun _ => read.bind fun w => pure _
  exact .of_objects rfl rfl rfl rfl rfl rfl rfl rfl rfl

theorem holding (key : Identity) (h : u.Guided x) : u.Guided (Action.holding key x) := by
  refine Guided.bind (update fun w => ?_) fun _ => h.ensuring (update fun w => ?_)
  · exact .of_objects rfl rfl rfl rfl rfl rfl rfl rfl rfl
  · exact .of_objects rfl rfl rfl rfl rfl rfl rfl rfl rfl

end UserCode.Guided

end PerThread
