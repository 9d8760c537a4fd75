import PerThread.Proofs.Reference.Changes

/-!
# Handles keep up with the reference

Each operation of a handle does what the reference says of it, whatever the tables have to do for it.
-/

namespace PerThread.Reference

open Exec (Yields)
open Script (userCode)

variable {number : Origin → Nat} {s s' s'' : State} {ms : List (Kind → Option Map)} {w w' w'' : World}
  {t : Table Ref} {m : Map} {kind : Kind} {n : Nat} {v : Value} {g : Handle} {p : Step → Action Reply}
  {cs cs' : List (Call Origin)}

/-- The session has gone on, the reference has come to `s'`, and both have noted the same calls. -/
structure Went (number : Origin → Nat) (s' : State) (ms : List (Kind → Option Map)) (cs : List (Call Origin))
    (w w' : World) : Prop where
  stands : Matches number s' ms w'.core
  inUse_eq : w'.inUse = w.inUse
  calls : w'.calls.Perm (w.calls ++ cs.map (Call.map number))

/-- A step of the session keeps up with one of the reference. -/
abbrev Follows (number : Origin → Nat) (ms : List (Kind → Option Map)) (x : Action Reply)
    (out : State × Account Answer) (w : World) : Prop :=
  Yields x w fun reply w' => Agrees number reply out.2.answer ∧ Went number out.1 ms out.2.calls w w'

namespace Went

theorem quiet (h : Matches number s ms w.core) (hw' : w'.core = w.core) : Went number s ms [] w w' := by
  have hinUse : w'.core.inUse = w.core.inUse := by rw [hw']
  refine ⟨?_, hinUse, ?_⟩
  · rw [hw']
    exact h
  · rw [← w'.core_calls, hw', w.core_calls, List.map_nil, List.append_nil]

theorem trans (h : Went number s' ms cs w w') (h' : Went number s'' ms cs' w' w'') :
    Went number s'' ms (cs ++ cs') w w'' := by
  refine ⟨h'.stands, h'.inUse_eq.trans h.inUse_eq, ?_⟩
  rw [List.map_append, ← List.append_assoc]
  exact h'.calls.trans (h.calls.append_right _)

theorem then_quiet (h : Went number s' ms cs w w') (hw'' : w''.core = w'.core) : Went number s' ms cs w w'' := by
  have htrans := h.trans (.quiet h.stands hw'')
  rwa [List.append_nil] at htrans

/-- Another table came into its place. -/
theorem put (h : Matches number s' ms (w.core.put kind t)) (hw' : w'.core = w.core.put kind t) :
    Went number s' ms [] w w' := by
  have hinUse : w'.core.inUse = w.core.inUse := by rw [hw']; rfl
  refine ⟨?_, hinUse, ?_⟩
  · rw [hw']
    exact h
  · have hcalls : (w.core.put kind t).calls = w.core.calls := rfl
    rw [← w'.core_calls, hw', hcalls, w.core_calls, List.map_nil, List.append_nil]

end Went

/-! ## One table -/

/-- An operation that writes the value of one variable. -/
theorem Mapped.update (h : Mapped number s t m) (hb : Backed number s w) (hg : g ∈ s.handles.values)
    {o : Option Value} (op : Op Ref) (hop : op.subject? = some (numbered g.number))
    (hwrite : ∀ key, op.write? key = if numbered g.number = key then some (o.map (number ·.origin)) else none)
    (ho : ∀ v, o = some v → v ∈ s.objects) :
    Mapped number s (op.table w.live t).copy (Function.update m g.number o) := by
  have hnumber := hb.known g hg
  refine h.after hb.live_eq (fun key hkey => ?_) (fun n v hv => ?_) (fun n v hv => ?_) fun n => ?_
  · rw [hop] at hkey
    obtain rfl := Option.some.inj hkey
    exact ⟨g.number, hnumber, rfl, State.live_iff.2 ⟨g, hg, rfl⟩⟩
  · by_cases hn : n = g.number
    · rw [hn]
      exact hnumber
    · rw [Function.update_of_ne hn] at hv
      exact h.bounded n v hv
  · by_cases hn : n = g.number
    · subst hn
      rw [Function.update_self] at hv
      exact ho v hv
    · rw [Function.update_of_ne hn] at hv
      exact h.made n v hv
  · rw [hwrite]
    by_cases hn : n = g.number
    · subst hn
      rw [if_pos rfl, Function.update_self]
      rfl
    · have hne : numbered g.number ≠ numbered n := fun hkey => hn (numbered_inj hkey).symm
      rw [if_neg hne, Function.update_of_ne hn]
      rfl

theorem yields_lookup (h : Matches number s ms w.core) (hg : g ∈ s.handles.values) :
    Yields (Store.lookup (userCode p) g.kind (numbered g.number)) w fun r w' =>
      r = (s.read g).map (number ·.origin) ∧ Went number s ms [] w w' := by
  rcases h.slot_cases g.kind with ⟨hm, hslot⟩ | ⟨m, t, hm, hslot, ht⟩
  · refine (Store.yields_lookup_none hslot).mono ?_
    rintro _ w' ⟨rfl, hw'⟩
    refine ⟨?_, .quiet h hw'⟩
    simp [State.read, hm]
  · refine (Store.yields_lookup h.tame hslot).mono ?_
    rintro _ w' ⟨rfl, hw'⟩
    have hlive : s.live g.number = true := State.live_iff.2 ⟨g, hg, rfl⟩
    have hop : ∀ key ∈ (Op.get (numbered g.number) : Op Ref).subject?,
        ∃ n < s.vars.length, key = numbered n ∧ s.live n = true := by
      rintro _ ⟨⟩
      exact ⟨g.number, h.known g hg, rfl, hlive⟩
    have hafter : Mapped number s ((Op.get (numbered g.number)).table w.core.live t).copy m :=
      ht.after h.live_eq hop ht.bounded ht.made fun _ => rfl
    obtain ⟨-, -, -, -, -, hget⟩ := ht.whole.toWellFormed.get? ((h.live_eq g.number).trans hlive)
    refine ⟨?_, .put (h.put_same hm hafter) hw'⟩
    rw [hget, ht.value g.number hlive, State.read, hm]
    rfl

theorem yields_store (h : Matches number s ms w.core) (hg : g ∈ s.handles.values) (hv : v ∈ s.objects) :
    Yields (Store.store (userCode p) g.kind (numbered g.number) (number v.origin)) w fun _ w' =>
      Went number (s.store g v) ms [] w w' := by
  rcases h.slot_cases g.kind with ⟨hm, hslot⟩ | ⟨m, t, hm, hslot, ht⟩
  · refine (Store.yields_store_first hslot _).mono fun _ w' hw' => ?_
    have hstore : s.store g v = { s with
        maps := Function.update s.maps g.kind (some (Function.update (fun _ => none) g.number (some v))) } := by
      rw [State.store, hm]
      rfl
    rw [hstore]
    exact .put (h.put (.singleton (h.known g hg) hv)) hw'
  · refine (Store.yields_store h.tame hslot _).mono fun _ w' hw' => ?_
    have hstore : s.store g v = { s with
        maps := Function.update s.maps g.kind (some (Function.update m g.number (some v))) } := by
      rw [State.store, hm]
      rfl
    have hafter := ht.update h.toBacked hg (o := some v) (.set (numbered g.number) (number v.origin)) rfl
      (fun _ => rfl) (by rintro _ ⟨⟩; exact hv)
    rw [hstore]
    exact .put (h.put hafter) hw'

theorem yields_erase (h : Matches number s ms w.core) (hg : g ∈ s.handles.values) :
    Yields (Store.erase (userCode p) g.kind (numbered g.number)) w fun _ w' =>
      Went number (s.remove g) ms [] w w' := by
  rcases h.slot_cases g.kind with ⟨hm, hslot⟩ | ⟨m, t, hm, hslot, ht⟩
  · refine (Store.yields_erase_absent hslot).mono fun _ w' hw' => ?_
    have hsame : s.remove g = s := by
      unfold State.remove
      rw [hm, Option.map_none, ← hm, Function.update_eq_self]
    rw [hsame]
    exact .quiet h hw'
  · refine (Store.yields_erase h.tame hslot).mono fun _ w' hw' => ?_
    have hremove : s.remove g = { s with
        maps := Function.update s.maps g.kind (some (Function.update m g.number none)) } := by
      rw [State.remove, hm]
      rfl
    have hafter := ht.update h.toBacked hg (o := none) (.remove (numbered g.number)) rfl (fun _ => rfl) nofun
    rw [hremove]
    exact .put (h.put hafter) hw'

/-! ## User code -/

theorem yields_newObject (h : Matches number s ms w.core) (d : Datum) :
    Yields (Action.newObject d []) w fun r w' =>
      r = number (s.create d).1.origin ∧ Went number (s.create d).2 ms [] w w' := by
  refine (Action.yields_newObject d).mono ?_
  rintro _ w' ⟨rfl, hw'⟩
  refine ⟨?_, ?_, ?_, ?_⟩
  · rw [State.create, h.direct, h.length_objects]
  · rw [hw']
    exact h.create d
  · have hinUse : w'.core.inUse = w.core.inUse := by rw [hw']; rfl
    exact hinUse
  · rw [← w'.core_calls, hw', World.calls_grow, w.core_calls]
    exact .refl _

/-- An initializer that neither performs steps nor panics makes its value. -/
theorem callInitializer_eq (name : Int) (call : Nat) {i : Initializer Step}
    (hbody : withinCalls i.bodyCalls call = true → i.body = [])
    (hpanic : withinCalls i.panicCalls call = true → i.panic = none) :
    Script.callInitializer p name call i = (do
      Action.report (.initializerCalled name call)
      Action.newObject (i.valueAt call) i.onDestroy) := by
  unfold Script.callInitializer
  cases hmessage : i.panic with
  | none =>
    cases hcall : withinCalls i.bodyCalls call with
    | false => rfl
    | true =>
      rw [hbody hcall]
      rfl
  | some message =>
    have hcalm : withinCalls i.panicCalls call = false := by
      by_contra hcall
      simp [hpanic (by simpa using hcall)] at hmessage
    rw [hcalm]
    cases hcall : withinCalls i.bodyCalls call with
    | false => rfl
    | true =>
      rw [hbody hcall]
      rfl

theorem yields_callInitializer (h : Matches number s ms w.core) (name : Int) (call : Nat) {i : Initializer Step}
    (hbody : withinCalls i.bodyCalls call = true → i.body = [])
    (hpanic : withinCalls i.panicCalls call = true → i.panic = none) (hdestroy : i.onDestroy = []) :
    Yields (Script.callInitializer p name call i) w fun r w' =>
      r = number (s.create (i.valueAt call)).1.origin ∧
        Went number (s.create (i.valueAt call)).2 ms [.initializer name call] w w' := by
  rw [callInitializer_eq name call hbody hpanic, hdestroy]
  refine (Action.yields_report rfl).bind fun _ m hm => ?_
  have hinUse : m.core.inUse = w.core.inUse := by rw [hm]; rfl
  have hcalled : Went number s ms [.initializer name call] w m := by
    refine ⟨?_, hinUse, ?_⟩
    · rw [hm]
      simpa [World.grow] using h.withLog (w.core.log.push (.initializerCalled name call))
    · rw [← m.core_calls, hm, World.calls_grow, w.core_calls]
      exact .refl _
  refine (yields_newObject hcalled.stands _).mono ?_
  rintro r w' ⟨hr, hw'⟩
  exact ⟨hr, hcalled.trans hw'⟩

theorem yields_construct (h : Matches number s ms w.core) (hn : n < s.vars.length) :
    Yields (Script.construct p (numbered n)) w fun r w' =>
      r = number ((s.countCall n).create (s.variableAt n).first).1.origin ∧
        Went number ((s.countCall n).create (s.variableAt n).first).2 ms (s.variableAt n).firstCalls w w' := by
  have hvariable : w.variableOf? (numbered n) = some ((s.variableAt n).real n) := h.variableOf? hn
  have hrun : Yields (Script.variableOf (numbered n)) w fun x w' => x = (s.variableAt n).real n ∧ w = w' := by
    refine .read ?_
    rw [hvariable]
    exact .pure ⟨rfl, rfl⟩
  refine hrun.bind ?_
  rintro _ _ ⟨rfl, rfl⟩
  have hcount := h.countCall n
  refine Yields.bind
    (P := fun _ m => Matches number (s.countCall n) ms m.core ∧ m.inUse = w.inUse ∧ m.calls = w.calls)
    (.update ⟨hcount, rfl, rfl⟩) ?_
  rintro _ m ⟨hm, hinUse, hcalls⟩
  have hwent : Went number (s.countCall n) ms [] w m := ⟨hm, hinUse, by rw [hcalls]; simp⟩
  have hquiet := h.quiet_at hn
  have hrecipe : ((s.variableAt n).real n).recipe = (s.variableAt n).recipe := rfl
  rw [hrecipe]
  unfold Variable.first Variable.firstCalls
  cases hi : (s.variableAt n).recipe.initializer with
  | blank =>
    refine (yields_newObject hm .null).mono ?_
    rintro r w' ⟨hr, hw'⟩
    exact ⟨hr, hwent.trans hw'⟩
  | scripted i =>
    obtain ⟨hbody, hpanic, hdestroy⟩ := hquiet.initializer i hi
    refine (yields_callInitializer hm _ _ (hbody _) (hpanic _) hdestroy).mono ?_
    rintro r w' ⟨hr, hw'⟩
    exact ⟨hr, hwent.trans hw'⟩

/-! ## Handles -/

theorem Matches.mem_of_read (h : Matches number s ms w) (hread : s.read g = some v) : v ∈ s.objects := by
  obtain ⟨m, hm, hv⟩ := Option.bind_eq_some_iff.1 hread
  rcases h.slot_cases g.kind with ⟨hnone, -⟩ | ⟨m', t, hm', -, ht⟩
  · rw [hnone] at hm
    cases hm
  · rw [hm'] at hm
    cases hm
    exact ht.made g.number v hv

theorem yields_get (h : Matches number s ms w.core) (hg : g ∈ s.handles.values) :
    Yields (g.real.get (userCode p)) w fun r w' =>
      ∃ v, (s.get g).2.answer = .value v ∧ v ∈ (s.get g).1.objects ∧ r = number v.origin ∧
        Went number (s.get g).1 ms (s.get g).2.calls w w' := by
  refine (yields_lookup h hg).bind ?_
  rintro _ m ⟨rfl, hm⟩
  unfold State.get
  cases hread : s.read g with
  | some v => exact .pure ⟨v, rfl, h.mem_of_read hread, rfl, hm⟩
  | none =>
    refine (yields_construct hm.stands (h.known g hg)).bind ?_
    rintro _ m₁ ⟨rfl, hm₁⟩
    refine Yields.bind (Action.quiet_retain _) fun _ m₂ hm₂ => ?_
    have hwent := (hm.trans hm₁).then_quiet hm₂
    have hmade : ((s.countCall g.number).create (s.variableAt g.number).first).1 ∈
        ((s.countCall g.number).create (s.variableAt g.number).first).2.objects :=
      List.mem_append_right _ (List.mem_singleton_self _)
    refine Yields.bind ((yields_store hwent.stands hg hmade).onPanic _) fun _ w' hw' => ?_
    refine .pure ⟨_, rfl, hmade, rfl, ?_⟩
    have hall := hwent.trans hw'
    rwa [List.append_nil] at hall

theorem yields_show (h : Matches number s ms w.core) (hv : v ∈ s.objects) :
    Yields (Script.showAndRelease (userCode p) (number v.origin)) w fun reply w' =>
      Agrees number reply (.value v) ∧ w'.core = w.core := by
  have hvalue : (w.object (number v.origin)).value = v.datum := by
    rw [← w.core_object]
    exact h.object hv
  have hview : Action.view (number v.origin) w = .ok (w.shown (number v.origin)) w := rfl
  refine Yields.bind (P := fun s₀ m => s₀ = w.shown (number v.origin) ∧ m = w) ⟨_, _, hview, rfl, rfl⟩ ?_
  rintro _ m ⟨rfl, hm⟩
  have htame : m.core.Tame := by
    rw [hm]
    exact h.tame
  refine Yields.bind (Action.quiet_release htame _) fun _ w' hw' => ?_
  refine .pure ⟨?_, by rw [hw', hm]⟩
  unfold World.shown
  rw [hvalue]
  exact .value v _

/-! ## Steps with a handle -/

theorem Follows.withHandle (h : Matches number s ms w.core) (name : Int)
    {act : PerThread.Handle → Action Reply} {act' : Handle → State × Account Answer}
    (hact : ∀ g ∈ s.handles.values, ∀ m, Matches number s ms m.core → Follows number ms (act g.real) (act' g) m) :
    Follows number ms (Script.withHandle name act) (s.withHandle name act') w := by
  refine .read ?_
  have hfind : w.handles.find? name = (s.handles.find? name).map Handle.real := h.find?_handle name
  rw [hfind]
  unfold State.withHandle
  cases hg : s.handles.find? name with
  | none => exact .pure ⟨.noHandle, .quiet h rfl⟩
  | some g =>
    have hmem := Registry.mem_values_of_find? hg
    refine Action.yields_holding (hact g hmem _ (h.hold hmem)) fun reply w' hw' => ⟨hw'.1, ?_⟩
    have hwent := hw'.2
    have hinUse : w'.inUse = numbered g.number :: w.inUse := hwent.inUse_eq
    refine ⟨hwent.stands.letGo _, ?_, hwent.calls⟩
    show w'.inUse.erase (numbered g.number) = w.inUse
    rw [hinUse, List.erase_cons_head]

theorem follows_get (h : Matches number s ms w.core) (hg : g ∈ s.handles.values) :
    Follows number ms (do Script.showAndRelease (userCode p) (← g.real.get (userCode p))) (s.get g) w := by
  refine (yields_get h hg).bind ?_
  rintro _ m ⟨v, hanswer, hv, rfl, hm⟩
  refine (yields_show hm.stands hv).mono ?_
  rintro reply w' ⟨hreply, hw'⟩
  rw [hanswer]
  exact ⟨hreply, hm.then_quiet hw'⟩

theorem follows_tryGet (h : Matches number s ms w.core) (hg : g ∈ s.handles.values) :
    Follows number ms
      (do match ← g.real.tryGet (userCode p) with
        | none => return .nothing
        | some r => Script.showAndRelease (userCode p) r) (s.tryGet g) w := by
  refine (yields_lookup h hg).bind ?_
  rintro _ m ⟨rfl, hm⟩
  unfold State.tryGet
  cases hread : s.read g with
  | none => exact .pure ⟨.nothing, hm⟩
  | some v =>
    refine (yields_show hm.stands (h.mem_of_read hread)).mono ?_
    rintro reply w' ⟨hreply, hw'⟩
    exact ⟨hreply, hm.then_quiet hw'⟩

theorem follows_set (h : Matches number s ms w.core) (hg : g ∈ s.handles.values) (d : Datum) :
    Follows number ms
      (do
        g.real.set (userCode p) (← Action.newObject d [])
        return .done) (s.set g d) w := by
  refine (yields_newObject h d).bind ?_
  rintro _ m ⟨rfl, hm⟩
  have hmade : (s.create d).1 ∈ (s.create d).2.objects := List.mem_append_right _ (List.mem_singleton_self _)
  refine (yields_store hm.stands hg hmade).bind fun _ w' hw' => ?_
  exact .pure ⟨.done, hm.trans hw'⟩

theorem follows_remove (h : Matches number s ms w.core) (hg : g ∈ s.handles.values) :
    Follows number ms (do g.real.remove (userCode p); return .done) (s.remove g, ⟨.done, []⟩) w := by
  refine (yields_erase h hg).bind fun _ w' hw' => ?_
  exact .pure ⟨.done, hw'⟩

/-! ## Handles come and go -/

theorem follows_make (h : Matches number s ms w.core) (hidle : w.inUse = []) (name : Int) (how : Constructor Step)
    (hquiet : ∀ recipe, Script.recipeOf kind how = .ok recipe → Quiet recipe) :
    Follows number ms (Script.make name kind how)
      (match Script.recipeOf kind how with
        | .error cause => (s, ⟨.refused cause, []⟩)
        | .ok recipe => (s.make name kind recipe, ⟨.done, []⟩)) w := by
  unfold Script.make
  cases hrecipe : Script.recipeOf kind how with
  | error cause => exact .pure ⟨.refused cause, .quiet h rfl⟩
  | ok recipe =>
    have hmake : Matches number (s.make name kind recipe) ms _ := h.make hidle name (hquiet recipe hrecipe)
    refine Yields.bind (P := fun _ w' => Went number (s.make name kind recipe) ms [] w w') (.update ?_) ?_
    · exact ⟨hmake, rfl, by simp [World.calls]⟩
    · exact fun _ w' hw' => .pure ⟨.done, hw'⟩

theorem follows_discard (h : Matches number s ms w.core) (hidle : w.inUse = []) (name : Int) :
    Follows number ms (Script.discardHandle name)
      ({ s with handles := s.handles.erase name }, ⟨.flag (s.handles.find? name).isSome, []⟩) w := by
  refine .read (.write (.pure ⟨?_, ?_⟩))
  · have hfind : w.handles.find? name = (s.handles.find? name).map Handle.real := h.find?_handle name
    rw [hfind, Option.isSome_map]
    exact .flag _
  · exact ⟨h.discard hidle name, rfl, by simp [World.calls]⟩

theorem follows_duplicate (h : Matches number s ms w.core) (hidle : w.inUse = []) (name target : Int) :
    Follows number ms (Script.duplicateHandle name target)
      (s.withHandle name fun g => ({ s with handles := s.handles.set target g }, ⟨.done, []⟩)) w := by
  refine .read ?_
  have hfind : w.handles.find? name = (s.handles.find? name).map Handle.real := h.find?_handle name
  rw [hfind]
  unfold State.withHandle
  cases hg : s.handles.find? name with
  | none => exact .pure ⟨.noHandle, .quiet h rfl⟩
  | some g =>
    refine .write (.pure ⟨.done, ?_⟩)
    exact ⟨h.duplicate hidle hg target, rfl, by simp [World.calls]⟩

end PerThread.Reference
