import PerThread.Inheritance.Capture
import PerThread.Proofs.History.Effect
import PerThread.Proofs.Reference.Model
import PerThread.Proofs.Session.Yields

/-!
# What counts of a state

References are counted, values are destroyed and events reported all the time, and nothing of it shows in what
handles give: while no value does anything when it is destroyed, `World.core` is all that matters. Most
elementary actions leave it alone; the others change one part of it.
-/

namespace PerThread

open Exec (Yields)
open Reference (call? callsOf)

def Thread.core (t : Thread) : Thread := { Thread.start with plain := t.plain, inheritable := t.inheritable }

/-- The state as far as it counts: without the numbers of references and held values, and with no more in the
log than calls of initializers and derivations. -/
def World.core (w : World) : World :=
  { w with
    objects := w.objects.map fun o => { o with refs := 0 }
    thread := w.thread.core
    waiting := w.waiting.map Thread.core
    log := w.log.filter fun e => (call? e).isSome }

/-- No value does anything when it is destroyed. -/
def World.Tame (w : World) : Prop := ∀ o ∈ w.objects, o.onDestroy = []

/-- More objects, and more in the log. -/
def World.grow (w : World) (made : List Datum) (calls : List (LogEntry Reply)) : World :=
  { w with
    objects := w.objects ++ (made.map fun d => ⟨d, [], 0⟩).toArray
    log := w.log ++ calls.toArray }

/-- The computation leaves alone what counts. -/
abbrev Action.Quiet {α : Type} (x : Action α) (w : World) : Prop := Yields x w fun _ w' => w'.core = w.core

variable {w w' : World} {kind : Kind} {key : Identity} {p : Step → Action Reply}

namespace World

def calls (w : World) : List (Reference.Call Nat) := callsOf w.log.toList

theorem core_calls (w : World) : w.core.calls = w.calls := by
  unfold calls callsOf World.core
  rw [Array.toList_filter, List.filterMap_filter]
  congr 1
  funext e
  cases call? e <;> rfl

theorem calls_grow (w : World) (made : List Datum) (calls : List (LogEntry Reply)) :
    (w.grow made calls).calls = w.calls ++ callsOf calls := by
  simp [World.calls, World.grow, callsOf]

theorem tame_core (h : w.core.Tame) : w.Tame := by
  intro o ho
  have hmem : { o with refs := 0 } ∈ w.core.objects := Array.mem_map.2 ⟨o, ho, rfl⟩
  have hdestroy := h _ hmem
  exact hdestroy

theorem Tame.object (h : w.Tame) (r : Ref) : (w.object r).onDestroy = [] := by
  unfold World.object
  rw [Array.getD_eq_getD_getElem?]
  cases ho : w.objects[r]? with
  | none => rfl
  | some o => exact h o (Array.mem_of_getElem? ho)

theorem core_object (w : World) (r : Ref) : (w.core.object r).value = (w.object r).value := by
  unfold World.object World.core
  simp only [Array.getD_eq_getD_getElem?, Array.getElem?_map]
  cases w.objects[r]? <;> rfl

theorem core_slot (w : World) (kind : Kind) : w.core.thread.slot kind = w.thread.slot kind := by
  cases kind <;> rfl

theorem core_setSlot (w : World) (kind : Kind) (s : Slot) :
    { w with thread := w.thread.setSlot kind s }.core =
      { w.core with thread := w.core.thread.setSlot kind s } := by
  cases kind <;> rfl

theorem core_markUse (w : World) (kind : Kind) : { w with thread := w.thread.markUse kind }.core = w.core := rfl

theorem core_recount (w : World) (r : Ref) (f : Nat → Nat) : (w.recount r f).core = w.core := by
  have hobjects : (w.recount r f).core.objects = w.core.objects := by
    refine Array.ext (by simp [World.core, World.recount]) fun i hi hi' => ?_
    simp only [World.core, World.recount, Array.getElem_map, Array.getElem_modify]
    split <;> rfl
  unfold World.core at hobjects ⊢
  exact congrArg (fun objects => { w with
    objects := objects
    thread := w.thread.core
    waiting := w.waiting.map Thread.core
    log := w.log.filter fun e => (call? e).isSome }) hobjects

theorem core_log (w : World) (e : LogEntry Reply) :
    { w with log := w.log.push e }.core =
      if (call? e).isSome then { w.core with log := w.core.log.push e } else w.core := by
  unfold World.core
  simp only [Array.filter_push]
  split <;> rfl

theorem core_push (w : World) (d : Datum) :
    { w with objects := w.objects.push ⟨d, [], 1⟩ }.core = w.core.grow [d] [] := by
  simp [World.core, World.grow]

theorem grow_grow (w : World) (made made' : List Datum) (calls calls' : List (LogEntry Reply)) :
    (w.grow made calls).grow made' calls' = w.grow (made ++ made') (calls ++ calls') := by
  simp [World.grow, Array.append_assoc]

theorem size_grow (w : World) (made : List Datum) (calls : List (LogEntry Reply)) :
    (w.grow made calls).objects.size = w.objects.size + made.length := by
  simp [World.grow]

theorem grow_nil (w : World) : w.grow [] [] = w := by
  simp [World.grow]

end World

/-! ## Elementary actions -/

namespace Action

theorem quiet_report {e : LogEntry Reply} (he : call? e = none) : (report e).Quiet w := by
  refine .update ?_
  rw [World.core_log, he]
  rfl

theorem yields_report {e : LogEntry Reply} (he : (call? e).isSome = true) :
    Yields (report e) w fun _ w' => w'.core = w.core.grow [] [e] := by
  refine .update ?_
  rw [World.core_log, if_pos he]
  simp [World.grow]

theorem quiet_retain (r : Ref) : (retain r).Quiet w := .update (w.core_recount r _)

theorem yields_newObject (d : Datum) :
    Yields (newObject d []) w fun r w' => r = w.core.objects.size ∧ w'.core = w.core.grow [d] [] := by
  have hsize : w.objects.size = w.core.objects.size := (Array.size_map ..).symm
  exact ⟨w.objects.size, _, newObject_run d [] w, hsize, w.core_push d⟩

/-- The end of a value that does nothing. -/
theorem quiet_finalize (h : w.core.Tame) (r : Ref) : Quiet (Script.finalize p r) w := by
  refine .read ?_
  refine Yields.bind (quiet_report rfl) fun _ w' hw' => ?_
  rw [(World.tame_core h).object r]
  exact .pure hw'

theorem quiet_release (h : w.core.Tame) (r : Ref) : (release (Script.userCode p) r).Quiet w := by
  refine Yields.bind (P := fun _ m => m.core = w.core) (.update (w.core_recount r _)) fun _ m hm => ?_
  refine .read ?_
  split
  · rw [← hm] at h ⊢
    exact quiet_finalize h r
  · exact .pure hm

theorem quiet_releaseAll (h : w.core.Tame) (rs : List Ref) : (releaseAll (Script.userCode p) rs).Quiet w := by
  induction rs generalizing w with
  | nil => exact .pure rfl
  | cons r rest ih =>
    refine (quiet_release h r).ensuring fun _ m hm => ?_
    rw [← hm] at h ⊢
    exact ih h

theorem quiet_forM {α : Type} {f : α → Action Unit} (hf : ∀ a m, m.core = w.core → (f a).Quiet m) (o : Option α) :
    Quiet (o.forM f) w := by
  cases o with
  | none => exact .pure rfl
  | some a => exact hf a w rfl

theorem yields_slot (kind : Kind) :
    Yields (slot kind) w fun s w' => s = w.core.thread.slot kind ∧ w'.core = w.core :=
  ⟨_, _, slot_run kind w, (w.core_slot kind).symm, w.core_markUse kind⟩

theorem yields_setSlot (kind : Kind) (s : Slot) :
    Yields (setSlot kind s) w fun _ w' => w'.core = { w.core with thread := w.core.thread.setSlot kind s } :=
  .update (w.core_setSlot kind s)

theorem yields_updateTable {β : Type} (kind : Kind) (t : Table Ref) (op : Table Ref → Liveness → β × Table Ref) :
    Yields (updateTable kind t op) w fun r w' => r.1 = (op t w.core.live).1 ∧
      w'.core = { w.core with thread := w.core.thread.setSlot kind (.present (op t w.core.live).2.copy) } :=
  ⟨_, _, updateTable_run kind t op w, rfl, w.core_setSlot kind _⟩

end Action

/-! ## Stores -/

def World.put (w : World) (kind : Kind) (t : Table Ref) : World :=
  { w with thread := w.thread.setSlot kind (.present t) }

namespace Store

open Action

theorem yields_lookup_none (h : w.core.thread.slot kind = .absent) :
    Yields (lookup (Script.userCode p) kind key) w fun r w' => r = none ∧ w'.core = w.core := by
  refine (yields_slot kind).bind ?_
  rintro _ m ⟨rfl, hm⟩
  rw [h]
  exact .pure ⟨rfl, hm⟩

theorem yields_lookup (hw : w.core.Tame) {t : Table Ref} (h : w.core.thread.slot kind = .present t) :
    Yields (lookup (Script.userCode p) kind key) w fun r w' =>
      r = (t.get? w.core.live key).1 ∧
        w'.core = w.core.put kind ((Op.get key).table w.core.live t).copy := by
  refine (yields_slot kind).bind ?_
  rintro _ m ⟨rfl, hm⟩
  rw [h]
  rw [← hm] at hw ⊢
  refine (yields_updateTable kind t fun t live => t.get? live key).bind ?_
  rintro ⟨found, given⟩ m' ⟨hfound, hm'⟩
  have htame : m'.core.Tame := by
    rw [hm']
    exact hw
  refine Yields.bind (quiet_forM (fun r _ _ => quiet_retain r) found) fun _ m'' hm'' => ?_
  rw [← hm''] at htame
  refine Yields.bind ((quiet_releaseAll htame given).onPanic _) fun _ w' hw' => ?_
  exact .pure ⟨hfound, hw'.trans (hm''.trans hm')⟩

/-- The first store. -/
theorem yields_store_first (h : w.core.thread.slot kind = .absent) (r : Ref) :
    Yields (store (Script.userCode p) kind key r) w fun _ w' =>
      w'.core = w.core.put kind (.singleton key r) := by
  refine (yields_slot kind).bind ?_
  rintro _ m ⟨rfl, hm⟩
  rw [h]
  refine Yields.bind (quiet_report rfl) fun _ m' hm' => ?_
  rw [← hm, ← hm']
  exact yields_setSlot kind _

theorem yields_store (hw : w.core.Tame) {t : Table Ref} (h : w.core.thread.slot kind = .present t) (r : Ref) :
    Yields (store (Script.userCode p) kind key r) w fun _ w' =>
      w'.core = w.core.put kind ((Op.set key r).table w.core.live t).copy := by
  refine (yields_slot kind).bind ?_
  rintro _ m ⟨rfl, hm⟩
  rw [h]
  rw [← hm] at hw ⊢
  refine (yields_updateTable kind t fun t live => (t.insert live key r).swap).bind ?_
  rintro ⟨event, given⟩ m' ⟨-, hm'⟩
  have htame : m'.core.Tame := by
    rw [hm']
    exact hw
  refine Yields.bind (quiet_forM (fun e _ _ => quiet_report rfl) event) fun _ m'' hm'' => ?_
  rw [← hm''] at htame
  refine (quiet_releaseAll htame given).mono fun _ w' hw' => ?_
  exact hw'.trans (hm''.trans hm')

theorem yields_erase_absent (h : w.core.thread.slot kind = .absent) :
    (erase (Script.userCode p) kind key).Quiet w := by
  refine (yields_slot kind).bind ?_
  rintro _ m ⟨rfl, hm⟩
  rw [h]
  exact .pure hm

theorem yields_erase (hw : w.core.Tame) {t : Table Ref} (h : w.core.thread.slot kind = .present t) :
    Yields (erase (Script.userCode p) kind key) w fun _ w' =>
      w'.core = w.core.put kind ((Op.remove key).table w.core.live t).copy := by
  have hslot : w.thread.slot kind = .present t := by
    rw [← w.core_slot]
    exact h
  unfold Yields
  rw [erase_run hslot]
  refine Yields.mono (quiet_releaseAll ?_ _) fun _ w' hw' => hw'.trans ?_
  · exact hw
  · exact World.core_setSlot { w with thread := w.thread.markUse kind } kind _

end Store

end PerThread
