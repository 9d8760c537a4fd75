import PerThread.Proofs.Reference.Threads

/-!
# Whole sessions

A session that the reference covers comes to its end, and answers what the reference answers, step by step and on
every thread. Only derived objects may have other numbers.
-/

namespace PerThread.Reference

open Exec (Yields)
open Script (userCode)

variable {depth limit : Nat} {steps : List Step} {names : List (Nat → Nat)} {number : Origin → Nat} {w : World}
  {p : Step → Action Reply} {observed : Bool}

theorem matches_start (h : Extends [] number) : Matches number .start [] World.start.core := by
  obtain ⟨more, rfl⟩ := h
  have hthread : ThreadMapped (Origin.number ([] ++ more)) .start World.start.core.thread State.start.maps := by
    intro kind
    cases kind with
    | plain => exact .absent
    | inheritable => exact .absent
  exact {
    direct := fun _ => rfl
    catalog := rfl
    nextCode := by simp [World.core, World.start, State.start, HashCode.nth_zero]
    quiet := fun _ hx => absurd hx List.not_mem_nil
    handles := Registry.alike_empty
    known := fun _ hg => absurd hg List.not_mem_nil
    inUse := fun _ hkey => absurd hkey List.not_mem_nil
    tame := by simp [World.Tame, World.core, World.start]
    data := fun _ hv => absurd hv List.not_mem_nil
    renamed := by simp [World.core, World.start, State.start]
    thread := hthread
    waiting := .nil
    captures := Registry.alike_empty }

theorem stage_start : Stage [] .start [] .start :=
  ⟨rfl, fun _ => matches_start, rfl⟩

/-- The captures left over are discarded without a call. -/
theorem yields_discardCaptures (h : w.core.Tame) (hlimit : w.captures.bindings.length < limit) :
    Yields (Script.discardCaptures (userCode p) limit) w fun _ w' => Lost (fun _ _ => True) w w' := by
  induction limit generalizing w with
  | zero => omega
  | succ limit ih =>
    refine .read ?_
    cases hfirst : w.captures.first? with
    | none => exact .pure ⟨w.core.thread, w.captures, trivial, rfl⟩
    | some b =>
      refine .write ?_
      have htame : { w with captures := w.captures.erase b.1 }.core.Tame := h
      refine Yields.bind (Action.quiet_releaseAll htame _) fun _ w₁ hw₁ => ?_
      have hsame : w₁.core.captures = w.captures.erase b.1 := by rw [hw₁]; rfl
      have hless : w₁.core.captures.bindings.length < limit := by
        rw [hsame]
        have hb : b ∈ w.captures.bindings := List.mem_of_head? hfirst
        have hshort : (w.captures.erase b.1).bindings.length < w.captures.bindings.length :=
          List.length_filter_lt_length_iff_exists.2 ⟨b, hb, by simp⟩
        omega
      rw [← hw₁] at htame
      refine (ih htame hless).mono ?_
      rintro _ w' ⟨t, captures, -, hw'⟩
      refine ⟨t, captures, trivial, ?_⟩
      rw [hw', hw₁]
      rfl

/-- A session whose user code keeps to itself refines the reference: it comes to its end; on every thread, each
step gets the answer of the reference, with the same calls of initializers and derivations on the way; what
follows the steps calls nothing; in the end all objects of the reference are there, under numbers of their own,
and every initializer has been called as often. -/
theorem session_refines (hsteps : ∀ step ∈ steps, Covered depth step)
    (hlimit : (State.start.steps steps).1.captures.bindings.length < limit) :
    ∃ report w names, Script.sessionWithin observed depth limit steps .start = .ok report w ∧
      AllAgree (Origin.number names) report.thread.steps (State.start.steps steps).2 ∧
      callsOf (report.thread.holds ++ report.thread.exitPlain ++ report.thread.exitInheritable ++
        report.captures) = [] ∧
      ((State.start.steps steps).1.objects.map fun v => Origin.number names v.origin).Perm
        (List.range w.objects.size) ∧
      w.catalog.toList.map (fun x => (x.name, x.calls)) =
        (State.start.steps steps).1.vars.map fun x => (x.name, x.calls) := by
  have hexit (q : World) (hq : q.core.Tame)
      (hcount : q.captures.bindings.length = (State.start.steps steps).1.captures.bindings.length) :
      Yields (Script.closing (Script.discardCaptures (userCode (Script.performWithin observed depth true)) limit)) q
        fun log q' => callsOf log = [] ∧ Lost (fun _ _ => True) q q' := by
    have hfresh : { q with log := #[] }.core.Tame := hq
    have hless : { q with log := #[] }.captures.bindings.length < limit := by
      rw [← hcount] at hlimit
      exact hlimit
    exact yields_closing (yields_discardCaptures hfresh hless)
  obtain ⟨⟨thread, captures⟩, w, hrun, more, -, hgood⟩ := led_runThread
    (p := Script.performWithin observed depth true) observed (fun step hstep => keepsUp_perform observed depth step (hsteps step hstep))
    hexit stage_start
  obtain ⟨hall, hsilent, hcaptures, q, hwent, t, left, -, hw⟩ := hgood _ (extends_self _)
  have hstands := hwent.stands
  have hobjects : w.core.objects = q.core.objects := by rw [hw]
  have hcatalog : w.core.catalog = q.core.catalog := by rw [hw]
  have hsize : w.objects.size = q.core.objects.size := by
    rw [← hobjects]
    exact (Array.size_map ..).symm
  refine ⟨⟨thread, captures⟩, w, [] ++ more, ?_, hall, ?_, ?_, ?_⟩
  · show EStateM.bind _ _ World.start = _
    unfold EStateM.bind
    rw [hrun]
    rfl
  · unfold callsOf at hsilent hcaptures ⊢
    rw [List.filterMap_append, hsilent, hcaptures]
    rfl
  · rw [hsize]
    exact hstands.renamed
  · have hvars : w.catalog.toList = (State.start.steps steps).1.vars.mapIdx Variable.real := by
      rw [← hstands.catalog]
      exact congrArg Array.toList hcatalog
    rw [hvars]
    refine List.ext_getElem? fun i => ?_
    rw [List.getElem?_map, List.getElem?_mapIdx, List.getElem?_map, Option.map_map]
    rfl

/-- An inheritable variable that starts with 7, of which a child makes 8. -/
def counter : Recipe (Initial Step) (Derivation Step) :=
  ⟨.scripted ⟨.number 7, none, [], none, none, none, []⟩, some ⟨none, none, some (.number 8), [], none, [], id⟩⟩

/-- A thread gets its value and starts another one. -/
def family : List Step :=
  [.make 1 .inheritable (.builder ⟨some counter.initializer, counter.derivation⟩), .get 1,
    .spawn .inheriting [.tryGet 1]]

theorem quiet_counter : Quiet counter where
  initializer := by
    rintro _ ⟨⟩
    exact ⟨fun _ _ => rfl, fun _ _ => rfl, rfl⟩
  derivation := by
    rintro _ ⟨⟩
    exact ⟨rfl, rfl, rfl⟩

theorem session_of_family :
    (State.start.steps family).2.map Account.calls = [[], [.initializer 1 0], [.derivation 1 (.made 0)]] ∧
      ∃ report w names, Script.sessionWithin false 2 1 family .start = .ok report w ∧
        AllAgree (Origin.number names) report.thread.steps (State.start.steps family).2 := by
  have hmake : Covered 2 (.make 1 .inheritable (.builder ⟨some counter.initializer, counter.derivation⟩)) := by
    rintro _ ⟨⟩
    exact quiet_counter
  have hspawn : Covered 2 (.spawn .inheriting [.tryGet 1]) := List.forall_mem_singleton.2 trivial
  have hsteps : ∀ step ∈ family, Covered 2 step :=
    List.forall_mem_cons.2 ⟨hmake, List.forall_mem_cons.2 ⟨trivial, List.forall_mem_singleton.2 hspawn⟩⟩
  have hlimit : (State.start.steps family).1.captures.bindings.length < 1 := by decide +kernel
  obtain ⟨report, w, names, hrun, hall, -⟩ := session_refines hsteps hlimit
  exact ⟨by decide +kernel, report, w, names, hrun, hall⟩

end PerThread.Reference
