import PerThread.Inheritance.Capture
import PerThread.Proofs.Session.Proceeds
import PerThread.Thread.Life

/-!
# The operations of the library proceed

With tame user code, every operation of the library takes a course of elementary changes. An operation on a table
needs its identity to be in use, and one that puts references into a table needs them to have been handed out.
-/

namespace PerThread

open Action (Proceeds Tame Made)

variable {n : Nat} {w : World} {u : UserCode} {key : Identity} {kind : Kind} {r : Ref} {α : Type} {x : Action α}

/-! ## Stores and handles -/

/-- A reference, if any, to an object that there is. -/
abbrev Action.MadeAny (found : Option Ref) (w : World) : Prop := ∀ r, found = some r → r < w.objects.size

namespace Store

theorem proceeds_lookup (hu : u.Tame n) (kind : Kind) (hkey : key ∈ w.inUse) :
    Proceeds n (lookup u kind key) w Action.MadeAny := by
  refine (Action.proceeds_slot kind w).bind ?_
  rintro (_ | t | _) w₁ hs₁ hslot
  · exact .pure nofun
  · refine .known fun hw₁ => ?_
    have hkey₁ := hs₁.mem_inUse hkey
    have hsubject : ∀ k ∈ (Op.get key : Op Ref).subject?, k ∈ w₁.inUse := by
      rintro _ ⟨⟩
      exact hkey₁
    refine (Action.proceeds_updateTable (.get key) rfl hslot hsubject nofun).bind ?_
    rintro ⟨found, given⟩ w₂ hs₂ hfound
    have hmade : Action.MadeAny found w₂ := by
      intro r hr
      refine hs₂.lt_size (hw₁.bounded r (.running kind ?_))
      rw [hslot]
      obtain ⟨-, -, -, -, -, hvalue⟩ := (hw₁.thread.slot kind t hslot).toWellFormed.get? (World.live_of_mem hkey₁)
      exact Table.mem_values_of_valueOf? (hvalue.symm.trans (hfound.symm.trans hr))
    refine (Tame.option_forM Action.tame_retain found w₂).andThen fun w₃ hs₃ => ?_
    have hrelease : Tame n (found.forM (Action.release u)) := Tame.option_forM (Action.tame_release hu) found
    refine ((Action.tame_releaseAll hu given w₃).onPanic hrelease).andThen fun w₄ hs₄ => ?_
    exact .pure fun r hr => hs₄.lt_size (hs₃.lt_size (hmade r hr))
  · exact .pure nofun

theorem proceeds_store (hu : u.Tame n) (kind : Kind) (hkey : key ∈ w.inUse) (hr : r < w.objects.size) :
    Proceeds n (store u kind key r) w fun _ _ => True := by
  refine (Action.proceeds_slot kind w).bind ?_
  rintro (_ | t | _) w₁ hs₁ hslot
  · obtain ⟨hwf, hent⟩ := Table.wellFormed_singleton key r
    refine (Proceeds.update (.quiet (.log w₁ _) rfl)).bind ?_
    rintro _ _ _ rfl
    refine Action.tame_fill ⟨hwf, rfl⟩ ?_ (by simp [hslot])
    intro q hq
    rw [Table.values, hent] at hq
    rw [List.mem_singleton.1 hq]
    exact hs₁.lt_size hr
  · have hsubject : ∀ k ∈ (Op.set key r).subject?, k ∈ w₁.inUse := by
      rintro _ ⟨⟩
      exact hs₁.mem_inUse hkey
    have hpassed : ∀ q ∈ (Op.set key r).passed?, q < w₁.objects.size := by
      rintro _ ⟨⟩
      exact hs₁.lt_size hr
    refine (Action.proceeds_updateTable (.set key r) rfl hslot hsubject hpassed).bind ?_
    rintro ⟨event, given⟩ w₂ _ _
    refine (Tame.option_forM (fun e => Action.tame_report _) event w₂).andThen fun w₃ _ => ?_
    exact Action.tame_releaseAll hu given w₃
  · exact (Action.tame_release hu r w₁).andThen fun w₂ _ => Action.tame_report _ w₂

theorem proceeds_erase (hu : u.Tame n) (kind : Kind) (hkey : key ∈ w.inUse) :
    Proceeds n (erase u kind key) w fun _ _ => True := by
  refine (Action.proceeds_slot kind w).bind ?_
  rintro (_ | t | _) w₁ hs₁ hslot
  · exact .pure trivial
  · have hsubject : ∀ k ∈ (Op.remove key : Op Ref).subject?, k ∈ w₁.inUse := by
      rintro _ ⟨⟩
      exact hs₁.mem_inUse hkey
    refine (Action.proceeds_updateTable (.remove key) rfl hslot hsubject nofun).bind ?_
    rintro ⟨_, given⟩ w₂ _ _
    exact Action.tame_releaseAll hu given w₂
  · exact .pure trivial

end Store

namespace Handle

theorem proceeds_get (hu : u.Tame n) (h : Handle) (hkey : h.identity ∈ w.inUse) :
    Proceeds n (h.get u) w Made := by
  refine (Store.proceeds_lookup hu h.kind hkey).bind ?_
  rintro (_ | r) w₁ hs₁ hmade
  · refine (hu.construct h.identity w₁).bind fun r w₂ hs₂ hr₂ => ?_
    refine (Action.tame_retain r w₂).andThen fun w₃ hs₃ => ?_
    have hr₃ := hs₃.lt_size hr₂.lt
    have hstore := Store.proceeds_store hu h.kind (hs₃.mem_inUse (hs₂.mem_inUse (hs₁.mem_inUse hkey))) hr₃
    refine (hstore.onPanic (Action.tame_release hu r)).andThen fun w₄ hs₄ => ?_
    exact .pure (hs₄.lt_size hr₃)
  · exact .pure (hmade r rfl)

theorem proceeds_childValue (hu : u.Tame n) (h : Handle) {parent : Ref} (hr : parent < w.objects.size) :
    Proceeds n (h.childValue u parent) w Action.MadeAny := by
  have hrule : Tame n h.childRule := fun _ => .read (.pure trivial)
  refine (hrule w).bind ?_
  rintro (_ | _ | _) w₁ hs₁ _
  · exact .pure nofun
  · refine (Action.tame_retain parent w₁).andThen fun w₂ hs₂ => .pure ?_
    rintro _ ⟨⟩
    exact hs₂.lt_size (hs₁.lt_size hr)
  · refine (hu.derive h.identity parent w₁).bind fun r w₂ _ hfresh => .pure ?_
    rintro _ ⟨⟩
    exact hfresh.lt

theorem tame_text (h : Handle) : Tame n h.text := fun _ => .read (.pure trivial)

end Handle

/-! ## Captures -/

namespace Inheritance

/-- A capture that may be kept or installed. -/
def Fit (c : Inheritance) (w : World) : Prop := c.Whole ∧ ∀ r ∈ c.values, r < w.objects.size

theorem fit_nothing (w : World) : nothing.Fit w := ⟨nofun, nofun⟩

theorem proceeds_childValue (hu : u.Tame n) (child : Table Ref) {e : Entry Ref} (hr : e.value < w.objects.size) :
    Proceeds n (childValue u child e) w Action.MadeAny := by
  refine Proceeds.onPanic ?_ (Action.tame_releaseAll hu child.values)
  exact Action.proceeds_holding (Handle.proceeds_childValue hu _ hr) fun _ _ h => h

/-- The child's table gets references that were handed out, whatever the derivations do. -/
theorem proceeds_inheritAll (hu : u.Tame n) (child : Table Ref) (es : List (Entry Ref))
    (hhash : ∀ e ∈ es, e.hash = e.key.hash) (hr : ∀ e ∈ es, e.value < w.objects.size) :
    Proceeds n (child.inheritAll (fun key => return (← get).live key) (childValue u) es) w fun c w' =>
      ∃ hs, c = child.endow hs ∧ (hs.map Entry.key).Sublist (es.map Entry.key) ∧
        (∀ e ∈ hs, e.hash = e.key.hash) ∧ ∀ e ∈ hs, e.value < w'.objects.size := by
  induction es generalizing child w with
  | nil => exact .pure ⟨[], rfl, List.Sublist.refl _, nofun, nofun⟩
  | cons e rest ih =>
    obtain ⟨hhash_e, hhash_rest⟩ := List.forall_mem_cons.1 hhash
    obtain ⟨hr_e, hr_rest⟩ := List.forall_mem_cons.1 hr
    have hskip (w' : World) (hs' : w.Since n w') :
        Proceeds n (child.inheritAll (fun key => return (← get).live key) (childValue u) rest) w' fun c w' =>
          ∃ hs, c = child.endow hs ∧ (hs.map Entry.key).Sublist ((e :: rest).map Entry.key) ∧
            (∀ e ∈ hs, e.hash = e.key.hash) ∧ ∀ e ∈ hs, e.value < w'.objects.size := by
      refine (ih child hhash_rest fun f hf => hs'.lt_size (hr_rest f hf)).mono ?_
      rintro c w'' _ ⟨hs, rfl, hsub, hhs, hrs⟩
      exact ⟨hs, rfl, hsub.cons _, hhs, hrs⟩
    have hlive : Tame n (return (← get).live e.key) := fun _ => .read (.pure trivial)
    refine (hlive w).bind ?_
    rintro (_ | _) w₁ hs₁ _
    · exact hskip w₁ hs₁
    · refine (proceeds_childValue hu child (hs₁.lt_size hr_e)).bind ?_
      rintro (_ | value) w₂ hs₂ hmade
      · exact hskip w₂ (hs₁.trans hs₂)
      · refine (ih (child.inherit e value) hhash_rest fun f hf => ?_).mono ?_
        · exact (hs₁.trans hs₂).lt_size (hr_rest f hf)
        · rintro c w₃ hs₃ ⟨hs, rfl, hsub, hhs, hrs⟩
          refine ⟨{ e with value } :: hs, Table.endow_cons child e value hs, hsub.cons_cons e.key, ?_, ?_⟩
          · exact List.forall_mem_cons.2 ⟨hhash_e, hhs⟩
          · exact List.forall_mem_cons.2 ⟨hs₃.lt_size (hmade value rfl), hrs⟩

theorem proceeds_capture (hu : u.Tame n) (w : World) : Proceeds n (capture u) w Fit := by
  refine (Action.proceeds_slot .inheritable w).bind fun s w₁ hs₁ hslot => ?_
  cases s with
  | present t =>
    refine .known fun hw₁ => ?_
    have hwhole : t.Whole := hw₁.thread.slot .inheritable t hslot
    have hvalues : ∀ e ∈ t.copy.entries, e.value < w₁.objects.size := by
      intro e he
      refine hw₁.bounded e.value (.running .inheritable ?_)
      rw [hslot]
      exact List.mem_map_of_mem he
    refine (Tame.forM Action.tame_retain t.copy.values w₁).andThen fun w₂ hs₂ => ?_
    have hwalk := proceeds_inheritAll hu (.empty t.copy.capacity) t.copy.entries hwhole.hash_eq
      fun e he => hs₂.lt_size (hvalues e he)
    refine (hwalk.onPanic (Action.tame_releaseAll hu t.copy.values)).bind ?_
    rintro _ w₃ _ ⟨hs, rfl, hsub, hhash, hrs⟩
    obtain ⟨hchild, -, hent⟩ := hwhole.toWellFormed.copy.endow hsub hhash
    refine (Action.tame_report _ w₃).andThen fun w₄ hs₄ => ?_
    refine (Action.tame_releaseAll hu t.copy.values w₄).andThen fun w₅ hs₅ => .pure ⟨?_, ?_⟩
    · rintro _ ⟨⟩
      exact ⟨hchild, rfl⟩
    · intro r hr
      obtain ⟨e, he, rfl⟩ := List.mem_map.1 hr
      exact hs₅.lt_size (hs₄.lt_size (hrs e (hent.mem_iff.1 he)))
  | _ => exact .pure (fit_nothing w₁)

theorem tame_discard (hu : u.Tame n) (c : Inheritance) : Tame n (c.discard u) := Action.tame_releaseAll hu c.values

theorem proceeds_install (hu : u.Tame n) {c : Inheritance} (hc : c.Fit w) :
    Proceeds n (c.install u) w fun _ _ => True := by
  obtain ⟨_ | t⟩ := c
  · exact .pure trivial
  · obtain ⟨hwhole, hr⟩ := hc
    refine (Action.proceeds_slot .inheritable w).bind ?_
    rintro s w₁ hs₁ hslot
    have hr₁ : ∀ r ∈ t.values, r < w₁.objects.size := fun r hmem => hs₁.lt_size (hr r hmem)
    cases s with
    | absent => exact Action.tame_fill (hwhole t rfl) hr₁ (by simp [hslot])
    | present previous =>
      refine (Action.tame_fill (hwhole t rfl) hr₁ (by simp [hslot])).andThen fun w₂ _ => ?_
      exact Action.tame_releaseAll hu previous.values w₂
    | destroyed => exact Action.tame_releaseAll hu t.values w₁

end Inheritance

/-! ## Threads -/

namespace Thread

/-- A thread that may end loses its tables. -/
theorem proceeds_destroy (hu : u.Tame n) (kind : Kind) (hn : n ≤ w.waiting.length) :
    Proceeds n (destroy u kind) w fun _ _ => True := by
  refine (Action.proceeds_slot kind w).bind fun s w₁ hs₁ _ => ?_
  have hn₁ : n ≤ w₁.waiting.length := by rwa [hs₁.waiting_eq]
  refine (Proceeds.update (.change (.destroy kind hn₁) rfl rfl)).bind fun _ w₂ _ _ => ?_
  exact (Action.tame_releaseAll hu s.values w₂).noPanic

/-- The thread that waited goes on. -/
theorem run_ok {a : α} (hrun : x { w with waiting := w.thread :: w.waiting, thread := start } = .ok a w')
    (hwaiting : w'.waiting = w.thread :: w.waiting) :
    run x w = .ok a { w' with thread := w.thread, waiting := w.waiting } := by
  refine (Exec.bind_of_ok rfl).trans ((Exec.bind_of_ok hrun).trans ?_)
  obtain ⟨_, _, _, _, _, _, _, waiting, _⟩ := w'
  subst hwaiting
  rfl

theorem run_error {i : Interrupt}
    (hrun : x { w with waiting := w.thread :: w.waiting, thread := start } = .error i w') : run x w = .error i w' :=
  (Exec.bind_of_ok rfl).trans (Exec.bind_of_error hrun)

/-- A thread that does not panic comes to its end, and the one that waited for it goes on. -/
theorem proceeds_run
    (hx : Proceeds n x { w with waiting := w.thread :: w.waiting, thread := start } fun _ _ => True)
    (hpanic : ∀ message w', x { w with waiting := w.thread :: w.waiting, thread := start } ≠ .error (.panic message) w') :
    Proceeds n (run x) w fun _ _ => True := by
  intro hw hn
  have hstart : w.Change n { w with waiting := w.thread :: w.waiting, thread := start } := .start
  have ho := hx (hstart.good hw) (Nat.le_trans hn (Nat.le_succ _))
  rcases hrun : x { w with waiting := w.thread :: w.waiting, thread := start } with ⟨a, w'⟩ | ⟨message | _, w'⟩
  · rw [hrun] at ho
    obtain ⟨⟨hcourse, hwaiting, huse⟩, -⟩ := ho
    have hfinish : w'.Change n { w' with thread := w.thread, waiting := w.waiting } :=
      .finish hwaiting (by rw [hwaiting]; exact hn)
    rw [run_ok hrun hwaiting]
    exact ⟨⟨((World.Course.single hstart).trans hcourse).trans (.single hfinish), rfl, huse⟩, trivial⟩
  · exact absurd hrun (hpanic message w')
  · rw [hrun] at ho
    rw [run_error hrun]
    exact (World.Course.single hstart).trans ho

end Thread

end PerThread
