import PerThread.Proofs.Reference.Matching

/-!
# Changes on both sides

For every change of the reference there is the change of a session that keeps up with it.
-/

namespace PerThread.Reference

variable {number : Origin → Nat} {s s' : State} {ms : List (Kind → Option Map)} {w : World} {t : Table Ref}
  {m m' : Map} {kind : Kind} {n : Nat}

namespace Matches

theorem withLog (h : Matches number s ms w) (log : Array (LogEntry Reply)) :
    Matches number s ms { w with log } :=
  ⟨{ h.toBacked with }, { h.toStored with }⟩

/-- Other threads, with the maps of their tables. -/
theorem withThreads (h : Matches number s ms w) {thread : Thread} {waiting : List Thread}
    {maps : Kind → Option Map} {ms' : List (Kind → Option Map)} (hthread : ThreadMapped number s thread maps)
    (hwaiting : List.Forall₂ (ThreadMapped number s) waiting ms') :
    Matches number { s with maps } ms' { w with thread, waiting } := by
  have hs : s.Later { s with maps } := .same rfl rfl rfl
  refine ⟨{ h.toBacked with }, fun kind => (hthread kind).later hs, ?_, ?_⟩
  · exact List.Forall₂.imp (fun _ _ ht kind => (ht kind).later hs) hwaiting
  · exact h.captures.mono fun _ _ hc => hc.later hs

/-- Other captures. -/
theorem withCaptures (h : Matches number s ms w) {real : Registry String Inheritance}
    {captures : Registry String (Option Map)} (hcaptures : real.Alike (CaptureMapped number s) captures) :
    Matches number { s with captures } ms { w with captures := real } := by
  have hs : s.Later { s with captures } := .same rfl rfl rfl
  refine ⟨{ h.toBacked with }, fun kind => (h.thread kind).later hs, ?_, ?_⟩
  · exact List.Forall₂.imp (fun _ _ ht kind => (ht kind).later hs) h.waiting
  · exact hcaptures.mono fun _ _ hc => hc.later hs

/-- Other handles, of the variables that have some. -/
theorem withHandles (h : Matches number s ms w) (hidle : w.inUse = []) {real : Registry Int PerThread.Handle}
    {handles : Registry Int Handle} (hhandles : real.Alike (fun g' g => g' = g.real) handles)
    (hold : ∀ g ∈ handles.values, g ∈ s.handles.values) :
    Matches number { s with handles } ms { w with handles := real } := by
  have hs : s.Later { s with handles } := by
    refine ⟨Nat.le_refl _, fun n _ hlive => ?_, List.Subset.refl _⟩
    obtain ⟨g, hg, hgn⟩ := State.live_iff.1 hlive
    exact State.live_iff.2 ⟨g, hold g hg, hgn⟩
  refine ⟨{ h.toBacked with handles := hhandles, known := fun g hg => h.known g (hold g hg), inUse := ?_ }, ?_⟩
  · rw [hidle]
    nofun
  · exact { h.toStored.later hs rfl rfl with }

/-! ## Tables -/

theorem slot_cases (h : Matches number s ms w) (kind : Kind) :
    s.maps kind = none ∧ w.thread.slot kind = .absent ∨
      ∃ m t, s.maps kind = some m ∧ w.thread.slot kind = .present t ∧ Mapped number s t m := by
  have hslot := h.thread kind
  cases hm : s.maps kind with
  | none =>
    rw [hm] at hslot
    exact Or.inl ⟨rfl, hslot.absent_of_none⟩
  | some m =>
    rw [hm] at hslot
    obtain ⟨t, ht, hmapped⟩ := hslot.present_of_some
    exact Or.inr ⟨m, t, rfl, ht, hmapped⟩

theorem put (h : Matches number s ms w) (ht : Mapped number s t m) :
    Matches number { s with maps := Function.update s.maps kind (some m) } ms (w.put kind t) := by
  refine h.withThreads (fun other => ?_) h.waiting
  by_cases hother : other = kind
  · subst hother
    rw [Thread.slot_setSlot_self, Function.update_self]
    exact .present ht
  · rw [Thread.slot_setSlot_of_ne _ hother, Function.update_of_ne hother]
    exact h.thread other

/-- The same map in another table. -/
theorem put_same (h : Matches number s ms w) (hm : s.maps kind = some m) (ht : Mapped number s t m) :
    Matches number s ms (w.put kind t) := by
  have hput : Matches number { s with maps := Function.update s.maps kind (some m) } ms (w.put kind t) := h.put ht
  rw [← hm, Function.update_eq_self] at hput
  exact hput

/-! ## Objects and variables -/

/-- More objects, whose numbers are the next ones. -/
theorem withObjects (h : Matches number s ms w) {vs : List Value} {made : List Datum} (calls : List (LogEntry Reply))
    (hnumbers : (vs.map (number ·.origin)).Perm ((List.range made.length).map (w.objects.size + ·)))
    (hdata : ∀ v ∈ vs, ∃ i, number v.origin = w.objects.size + i ∧ made[i]? = some v.datum) :
    Matches number { s with objects := s.objects ++ vs } ms (w.grow made calls) := by
  have hs : s.Later { s with objects := s.objects ++ vs } :=
    ⟨Nat.le_refl _, fun _ _ hn => hn, List.subset_append_left _ _⟩
  refine ⟨{ h.toBacked with tame := ?_, data := ?_, renamed := ?_ }, ?_⟩
  · intro o ho
    simp only [World.grow, Array.mem_append, List.mem_toArray, List.mem_map] at ho
    rcases ho with ho | ⟨d, -, rfl⟩
    · exact h.tame o ho
    · rfl
  · intro v hv
    rcases List.mem_append.1 hv with hv | hv
    · have hlt := h.number_lt hv
      rw [← h.data v hv, World.grow, Array.getElem?_append_left hlt]
    · obtain ⟨i, hi, hdatum⟩ := hdata v hv
      rw [hi, World.grow, Array.getElem?_append_right (Nat.le_add_right _ _), Nat.add_sub_cancel_left,
        List.getElem?_toArray, List.getElem?_map, hdatum]
      rfl
  · rw [World.size_grow, List.range_add, List.map_append]
    exact h.renamed.append hnumbers
  · exact { h.toStored.later hs rfl rfl with }

theorem create (h : Matches number s ms w) (d : Datum) :
    Matches number (s.create d).2 ms (w.grow [d] []) := by
  have hnumber : number (.made s.objects.length) = w.objects.size := by rw [h.direct, h.length_objects]
  refine h.withObjects [] ?_ fun v hv => ⟨0, ?_, ?_⟩
  · rw [List.map_singleton, hnumber]
    exact .refl _
  · rw [List.mem_singleton.1 hv]
    exact hnumber
  · rw [List.mem_singleton.1 hv]
    rfl

theorem countCall (h : Matches number s ms w) (n : Nat) :
    Matches number (s.countCall n) ms
      { w with catalog := w.catalog.modify n fun x => { x with calls := x.calls + 1 } } := by
  have hlen : (s.countCall n).vars.length = s.vars.length := List.length_modify ..
  have hs : s.Later (s.countCall n) := ⟨Nat.le_of_eq hlen.symm, fun _ _ hn => hn, List.Subset.refl _⟩
  refine ⟨{ h.toBacked with catalog := ?_, nextCode := ?_, quiet := ?_, known := ?_ }, ?_⟩
  · refine List.ext_getElem? fun i => ?_
    have hi := congrArg (fun l => l[i]?) h.catalog
    simp only [Array.getElem?_toList, List.getElem?_mapIdx] at hi
    simp only [Array.getElem?_toList, Array.getElem?_modify, State.countCall, List.getElem?_mapIdx,
      List.getElem?_modify, hi]
    by_cases hin : n = i
    · simp only [hin, if_true]
      cases s.vars[i]? <;> rfl
    · simp [hin]
  · rw [hlen]
    exact h.nextCode
  · intro x hx
    obtain ⟨i, hi, rfl⟩ := List.getElem_of_mem hx
    rw [hlen] at hi
    have hquiet := h.quiet _ (List.getElem_mem hi)
    simp only [State.countCall, List.getElem_modify]
    split
    · exact hquiet
    · exact hquiet
  · intro g hg
    rw [hlen]
    exact h.known g hg
  · exact { h.toStored.later hs rfl rfl with }

theorem make (h : Matches number s ms w) (hidle : w.inUse = []) (name : Int)
    {recipe : Recipe (Initial Step) (Derivation Step)} (hrecipe : Quiet recipe) :
    Matches number (s.make name kind recipe) ms
      { w with
        nextCode := HashCode.next w.nextCode
        catalog := w.catalog.push ⟨⟨w.catalog.size, w.nextCode⟩, kind, name, recipe, 0⟩
        handles := w.handles.set name ⟨kind, ⟨w.catalog.size, w.nextCode⟩⟩ } := by
  have hkey : (⟨w.catalog.size, w.nextCode⟩ : Identity) = numbered s.vars.length := by
    rw [h.size_eq, h.nextCode]
    rfl
  rw [hkey]
  have hlen : (s.make name kind recipe).vars.length = s.vars.length + 1 := by simp [State.make]
  have hs : s.Later (s.make name kind recipe) := by
    refine ⟨by omega, fun n hn hlive => ?_, List.Subset.refl _⟩
    obtain ⟨g, hg, hgn⟩ := State.live_iff.1 hlive
    rcases Registry.mem_values_of_set hg with rfl | hg
    · exact absurd hgn.symm (Nat.ne_of_lt hn)
    · exact State.live_iff.2 ⟨g, hg, hgn⟩
  refine ⟨{ h.toBacked with
    catalog := ?_, nextCode := ?_, quiet := ?_, handles := ?_, known := ?_, inUse := ?_,
    tame := fun o ho => h.tame o ho }, ?_⟩
  · simp only [Array.toList_push, h.catalog, State.make, List.mapIdx_append, List.mapIdx_cons, List.mapIdx_nil]
    simp [Variable.real]
  · rw [hlen, HashCode.nth_succ]
    exact congrArg HashCode.next h.nextCode
  · intro x hx
    simp only [State.make, List.mem_append, List.mem_singleton] at hx
    rcases hx with hx | rfl
    · exact h.quiet x hx
    · exact hrecipe
  · exact h.handles.set name rfl
  · intro g hg
    rw [hlen]
    rcases Registry.mem_values_of_set hg with rfl | hg
    · exact Nat.lt_succ_self _
    · exact Nat.lt_succ_of_lt (h.known g hg)
  · rw [hidle]
    nofun
  · have hstored : Stored number (s.make name kind recipe) ms w := h.toStored.later hs rfl rfl
    exact ⟨hstored.thread, hstored.waiting, hstored.captures⟩

/-! ## Handles -/

theorem discard (h : Matches number s ms w) (hidle : w.inUse = []) (name : Int) :
    Matches number { s with handles := s.handles.erase name } ms
      { w with handles := w.handles.erase name } :=
  h.withHandles hidle (h.handles.erase name) fun _ hg => Registry.mem_values_of_erase hg

theorem duplicate (h : Matches number s ms w) (hidle : w.inUse = []) {name : Int} {g : Handle}
    (hg : s.handles.find? name = some g) (target : Int) :
    Matches number { s with handles := s.handles.set target g } ms
      { w with handles := w.handles.set target g.real } := by
  refine h.withHandles hidle (h.handles.set target rfl) fun f hf => ?_
  rcases Registry.mem_values_of_set hf with rfl | hf
  · exact Registry.mem_values_of_find? hg
  · exact hf

/-- The identity of a handle is held. -/
theorem hold (h : Matches number s ms w) {g : Handle} (hg : g ∈ s.handles.values) :
    Matches number s ms { w with inUse := numbered g.number :: w.inUse } := by
  refine ⟨{ h.toBacked with inUse := ?_ }, { h.toStored with }⟩
  exact List.forall_mem_cons.2 ⟨⟨g, hg, rfl⟩, h.inUse⟩

theorem letGo (h : Matches number s ms w) (key : Identity) :
    Matches number s ms { w with inUse := w.inUse.erase key } :=
  ⟨{ h.toBacked with inUse := fun k hk => h.inUse k (List.mem_of_mem_erase hk) }, { h.toStored with }⟩

/-! ## Captures -/

theorem withCaptured (h : Matches number s ms w) (captured : Nat) : Matches number { s with captured } ms w :=
  ⟨{ h.toBacked with }, h.toStored.later (.same rfl rfl rfl) rfl rfl⟩

theorem setCapture (h : Matches number s ms w) (name : String) {c : Inheritance} {o : Option Map}
    (hc : CaptureMapped number s c o) :
    Matches number { s with captures := s.captures.set name o } ms
      { w with captures := w.captures.set name c } :=
  h.withCaptures (h.captures.set name hc)

theorem eraseCapture (h : Matches number s ms w) (name : String) :
    Matches number { s with captures := s.captures.erase name } ms
      { w with captures := w.captures.erase name } :=
  h.withCaptures (h.captures.erase name)

/-! ## Threads -/

/-- The running thread waits for a new one. -/
theorem enter (h : Matches number s ms w) :
    Matches number { s with maps := fun _ => none } (s.maps :: ms)
      { w with waiting := w.thread :: w.waiting, thread := .start } := by
  refine h.withThreads (fun kind => ?_) (.cons h.thread h.waiting)
  cases kind with
  | plain => exact .absent
  | inheritable => exact .absent

/-- The thread that waited last goes on. -/
theorem leave {maps : Kind → Option Map} (h : Matches number s (maps :: ms) w) :
    ∃ t rest, w.waiting = t :: rest ∧
      Matches number (s.leave maps) ms { w with thread := t, waiting := rest } := by
  have hwaiting := h.waiting
  rcases hw : w.waiting with _ | ⟨t, rest⟩
  · rw [hw] at hwaiting
    cases hwaiting
  · rw [hw] at hwaiting
    obtain ⟨ht, hrest⟩ := List.forall₂_cons.1 hwaiting
    exact ⟨t, rest, rfl, h.withThreads ht hrest⟩

end Matches

end PerThread.Reference
