import PerThread.Inheritance.Capture
import PerThread.Proofs.Session.Trail
import PerThread.Proofs.Session.Whole
import PerThread.Proofs.Table.Tour
import PerThread.Script.Run

/-!
# A capture is a snapshot

While a capture walks over a table, derivations may do whatever user code can do: write to the very variables
that are still to be visited, remove them, make new ones, let go of handles. The walk is a `Tour` of the entries
as they were at the start all the same, and the values that are asked about are those from the start
(`Asked`). What happens to the tables meanwhile is the doing of user code alone (`UserCode.Trail`).
-/

namespace PerThread

variable {u : UserCode} {w w' q q' : World} {e : Entry Ref} {t child : Table Ref} {r : Option Ref}
  {key : Identity} {parent : Ref} {x : Variable}

/-- The state in which a walk over `t` starts: the place of the table is in use, and a snapshot refers to
each value once more. -/
def World.snapshot (w : World) (t : Table Ref) : World :=
  t.values.foldl (fun w r => w.recount r (· + 1)) { w with thread := w.thread.markUse .inheritable }

/-- What a child gets for an entry, and what it takes to find out: nothing if no variable is known by that name,
the parent's value itself if the variable has no derivation, and the outcome of the derivation otherwise. -/
inductive Asked (u : UserCode) (e : Entry Ref) (q : World) : Option Ref → World → Prop
  | refused (h : q.variableOf? e.key = none) : Asked u e q none q
  | shared {x : Variable} (h : q.variableOf? e.key = some x) (hd : x.recipe.derivation = none) :
      Asked u e q (some e.value) (q.recount e.value (· + 1))
  | derived {x : Variable} {r : Ref} {q' : World} (h : q.variableOf? e.key = some x)
      (hd : x.recipe.derivation ≠ none)
      (hrun : u.derive e.key e.value { q with inUse := e.key :: q.inUse } = .ok r q') :
      Asked u e q (some r) { q' with inUse := q'.inUse.erase e.key }

/-! ## One entry -/

namespace Handle

theorem childValue_run (h : Handle) (parent : Ref) (q : World) :
    h.childValue u parent q =
      (match (q.variableOf? h.identity).elim .refused (·.recipe.childRule h.kind) with
        | .refused => return none
        | .shared => do Action.retain parent; return some parent
        | .derived _ => return some (← u.derive h.identity parent) : Action (Option Ref)) q := rfl

theorem guided_childValue (h : Handle) (parent : Ref) : u.Guided (h.childValue u parent) := by
  refine UserCode.Guided.bind (.bind .read fun w => .pure _) fun rule => ?_
  cases rule with
  | refused => exact .pure _
  | shared => exact (UserCode.Guided.retain parent).bind fun _ => .pure _
  | derived d => exact (UserCode.Guided.derive h.identity parent).bind fun _ => .pure _

end Handle

namespace Inheritance

theorem guided_childValue (child : Table Ref) (e : Entry Ref) : u.Guided (childValue u child e) := by
  refine UserCode.Guided.onPanic ?_ (.releaseAll child.values)
  exact .holding e.key (Handle.guided_childValue _ e.value)

theorem childValue_ok (h : childValue u child e q = .ok r q') : Asked u e q r q' := by
  obtain ⟨p, hp, rfl⟩ := Action.holding_ok (Exec.onPanic_ok h)
  rw [Handle.childValue_run] at hp
  have herase (q : World) : { q with inUse := (e.key :: q.inUse).erase e.key } = q := by
    rw [List.erase_cons_head]
  have hsame : World.variableOf? { q with inUse := e.key :: q.inUse } e.key = q.variableOf? e.key := rfl
  rw [hsame] at hp
  cases hx : q.variableOf? e.key with
  | none =>
    rw [hx] at hp
    cases hp
    simp only [herase]
    exact .refused hx
  | some x =>
    rw [hx] at hp
    cases hd : x.recipe.derivation with
    | none =>
      simp only [Option.elim, Recipe.childRule, hd] at hp
      cases hp
      have hback := herase (q.recount e.value (· + 1))
      have hasked : Asked u e q (some e.value) (q.recount e.value (· + 1)) := .shared hx hd
      rw [← hback] at hasked
      exact hasked
    | some d =>
      simp only [Option.elim, Recipe.childRule, hd] at hp
      obtain ⟨r', p', hrun, hp⟩ := Exec.bind_ok hp
      cases hp
      exact .derived hx (by simp [hd]) hrun

/-- The derivation is called while its identity is held. -/
theorem childValue_of_derivation (hx : q.variableOf? e.key = some x) (hd : x.recipe.derivation ≠ none) :
    childValue u child e q =
      Exec.onPanic (Action.holding e.key (do return some (← u.derive e.key e.value)))
        (Action.releaseAll u child.values) q := by
  obtain ⟨d, hd⟩ := Option.ne_none_iff_exists'.1 hd
  have hx' : World.variableOf? { q with inUse := e.key :: q.inUse } e.key = some x := hx
  have hcall : Handle.childValue u ⟨.inheritable, e.key⟩ e.value { q with inUse := e.key :: q.inUse } =
      (do return some (← u.derive e.key e.value) : Action (Option Ref)) { q with inUse := e.key :: q.inUse } := by
    rw [Handle.childValue_run, hx']
    simp only [Option.elim, Recipe.childRule, hd]
  unfold childValue
  rw [Exec.onPanic_run, Exec.onPanic_run, Action.holding_run, Action.holding_run, hcall]

theorem childValue_of_asked (h : Asked u e q r q') (child : Table Ref) : childValue u child e q = .ok r q' := by
  cases h with
  | refused hx =>
    unfold childValue
    rw [Exec.onPanic_run, Action.holding_run, Handle.childValue_run]
    have hx' : World.variableOf? { q with inUse := e.key :: q.inUse } e.key = none := hx
    rw [hx']
    simp only [Option.elim, pure, EStateM.pure, List.erase_cons_head]
  | shared hx hd =>
    unfold childValue
    rw [Exec.onPanic_run, Action.holding_run, Handle.childValue_run]
    have hx' : World.variableOf? { q with inUse := e.key :: q.inUse } e.key = some _ := hx
    rw [hx']
    simp only [Option.elim, Recipe.childRule, hd]
    show EStateM.Result.ok (some e.value)
      { q.recount e.value (· + 1) with inUse := (e.key :: q.inUse).erase e.key } = _
    rw [List.erase_cons_head]
    rfl
  | derived hx hd hrun =>
    rw [childValue_of_derivation hx hd, Exec.onPanic_run, Action.holding_run, Exec.bind_of_ok hrun]
    rfl

/-- After a panic of the derivation the values of the child's table are let go of. -/
theorem childValue_of_panic {message : String} (hx : q.variableOf? e.key = some x) (hd : x.recipe.derivation ≠ none)
    (hrun : u.derive e.key e.value { q with inUse := e.key :: q.inUse } = .error (.panic message) q')
    (child : Table Ref) :
    childValue u child e q =
      Exec.resume message (Action.releaseAll u child.values) { q' with inUse := q'.inUse.erase e.key } := by
  rw [childValue_of_derivation hx hd, Exec.onPanic_run, Action.holding_run, Exec.bind_of_error hrun]

/-! ## The walk -/

theorem guided_walk (child : Table Ref) (es : List (Entry Ref)) :
    u.Guided (child.walk World.live (childValue u) es) := by
  induction es generalizing child with
  | nil => exact .pure child
  | cons e rest ih =>
    refine UserCode.Guided.bind (.bind .read fun w => .pure _) fun alive => ?_
    cases alive with
    | false => exact ih child
    | true =>
      refine (guided_childValue child e).bind fun value => ?_
      cases value with
      | none => exact ih child
      | some value => exact ih (child.inherit e value)

theorem guided_capture : u.Guided (capture u) := by
  refine (UserCode.Guided.slot .inheritable).bind fun s => ?_
  cases s.table? with
  | none => exact .pure _
  | some t =>
    refine (UserCode.Guided.forM .retain t.copy.values).bind fun _ => ?_
    refine UserCode.Guided.bind ?_ fun child => ?_
    · exact (guided_walk _ t.copy.entries).onPanic (.releaseAll t.copy.values)
    · refine (UserCode.Guided.report _).bind fun _ => ?_
      exact (UserCode.Guided.releaseAll t.copy.values).bind fun _ => .pure _

theorem forM_retain (rs : List Ref) (w : World) :
    rs.forM Action.retain w = .ok () (rs.foldl (fun w r => w.recount r (· + 1)) w) := by
  induction rs generalizing w with
  | nil => rfl
  | cons r rest ih => exact ih (w.recount r (· + 1))

theorem capture_nothing (h : w.thread.inheritable.table? = none) :
    capture u w = .ok .nothing { w with thread := w.thread.markUse .inheritable } := by
  unfold capture
  change EStateM.bind _ _ w = _
  unfold EStateM.bind
  rw [Action.slot_run]
  simp only [Thread.slot, h]
  rfl

/-- A capture has the child's values of what the table held when it began, for those who are alive when their
turn comes, and nothing else. What became of the tables meanwhile is the doing of derivations and of the ends of
values, and the capture fails only where one of them did. -/
theorem capture_snapshot (hwf : ∀ t, w.thread.inheritable = .present t → t.WellFormed) :
    (∀ t c w', w.thread.inheritable = .present t → capture u w = .ok c w' →
      ∃ child turns q, c = ⟨some child⟩ ∧ child.Whole ∧
        turns.map Turn.entry = t.entries ∧ Tour World.live (Asked u) (w.snapshot t) turns q ∧
        (∀ key r, child.valueOf? key = some r ↔ ∃ τ ∈ turns, τ.entry.key = key ∧ τ.heir = some r) ∧
        Action.releaseAll u t.values { q with log := q.log.push (.event child.forkedEvent) } = .ok () w' ∧
        u.Trail w w') ∧
    (∀ i w', capture u w = .error i w' → u.Trail w w' ∧ u.Fails w) ∧
    (w.thread.inheritable.table? = none →
      capture u w = .ok .nothing { w with thread := w.thread.markUse .inheritable }) := by
  have hguided := guided_capture (u := u) w
  refine ⟨fun t c w' ht hrun => ?_, fun i w' hrun => ?_, capture_nothing⟩
  · rw [hrun] at hguided
    obtain ⟨s, w₀, hslot, hrun⟩ := Exec.bind_ok hrun
    rw [Action.slot_run, Thread.slot, ht] at hslot
    cases hslot
    obtain ⟨_, w₁, hretain, hrun⟩ := Exec.bind_ok hrun
    rw [forM_retain] at hretain
    cases hretain
    obtain ⟨child, q, hwalk, hrun⟩ := Exec.bind_ok hrun
    obtain ⟨turns, hturns, htour, rfl⟩ :=
      Table.walk_ok (Asked u) (fun _ _ _ _ _ h => childValue_ok h) (Exec.onPanic_ok hwalk)
    obtain ⟨_, q₁, hreport, hrun⟩ := Exec.bind_ok hrun
    cases hreport
    obtain ⟨_, q₂, hrelease, hrun⟩ := Exec.bind_ok hrun
    cases hrun
    obtain ⟨hchild, -, -⟩ := (hwf t ht).endow_heirsOf hturns
    refine ⟨_, turns, q, rfl, ⟨hchild, rfl⟩, hturns, htour, fun key r => ?_, hrelease, hguided⟩
    exact (hwf t ht).valueOf?_endow hturns
  · rw [hrun] at hguided
    exact hguided

/-- A thread with values of two variables. The derivation of the first removes both. -/
def unruly : World :=
  { World.start with
    catalog := #[⟨⟨0, 0⟩, .inheritable, 0, ⟨.blank, some ⟨none, none, none, [.remove 1, .remove 0], none, [], id⟩⟩, 1⟩,
      ⟨⟨1, 7⟩, .inheritable, 1, ⟨.blank, none⟩, 1⟩]
    handles := ⟨[(0, ⟨.inheritable, ⟨0, 0⟩⟩), (1, ⟨.inheritable, ⟨1, 7⟩⟩)]⟩
    objects := #[⟨.null, [], 1⟩, ⟨.null, [], 1⟩]
    thread := { Thread.start with
      inheritable := .present ((Table.singleton ⟨0, 0⟩ 0).insert (fun _ => true) ⟨1, 7⟩ 1).1 } }

theorem capture_of_unruly :
    ∃ c w', capture (Script.userCode (Script.performWithin false 1 true)) unruly = .ok c w' ∧
      (w'.thread.inheritable.table?.map Table.len) = some 0 ∧
      ∃ child, c.table = some child ∧ child.Whole ∧ child.valueOf? ⟨0, 0⟩ = some 2 ∧
        child.valueOf? ⟨1, 7⟩ = some 1 := by
  have hwf : ∀ t, unruly.thread.inheritable = .present t → t.WellFormed := by
    rintro _ ⟨⟩
    exact (Op.effect_set (Table.wellFormed_singleton ⟨0, 0⟩ 0).1 rfl 1).wellFormed
  have hrun : capture (Script.userCode (Script.performWithin false 1 true)) unruly = .ok _ _ := rfl
  obtain ⟨child, turns, q, hc, hwhole, -⟩ := (capture_snapshot hwf).1 _ _ _ rfl hrun
  obtain rfl := Option.some.inj (congrArg Inheritance.table hc)
  exact ⟨_, _, hrun, rfl, _, rfl, hwhole, rfl, rfl⟩

end Inheritance

end PerThread
