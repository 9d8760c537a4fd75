import PerThread.Proofs.Inheritance.Snapshot
import PerThread.Proofs.Session.Initial

/-!
# When user code panics

An initializer may panic in the middle of a `get`, and a derivation in the middle of a capture. The library has nothing
to undo then. A `get` stores only what an initializer has made, so the state at its end is the very one that the
initializer left (`Handle.Forsaken`). A capture makes the child's table aside, from a snapshot; the values that it has
so far and the references of the snapshot are let go of, and no table of the thread was ever touched
(`Inheritance.Forsaken`). All tables are whole then, so that whatever is done next, at once or later, does what it
always does (`World.Orderly`).
-/

namespace PerThread

open World (Since Course)

variable {u : UserCode} {w w' m q q' : World} {h : Handle} {t : Table Ref} {e : Entry Ref}
  {turns : List (Turn Ref World)} {message : String}

/-! ## What a lookup leaves alone -/

namespace World

/-- The same identities are alive, and every variable that is has its value, on the running thread and on those that
wait. -/
structure AsBefore (w w' : World) : Prop where
  live_eq : w'.live = w.live
  waiting_eq : w'.waiting = w.waiting
  captures_eq : w'.captures = w.captures
  reads_eq : ∀ h : Handle, w.live h.identity = true → w'.reads h = w.reads h

/-- A table that was cleaned of stale entries reads as before. -/
theorem asBefore_withTable {kind : Kind} {out : List (Entry Ref)} {v : Table Ref} (hw : w.Whole)
    (hs : w.thread.slot kind = .present t) (hc : t.Cleaned w.live out v) : w.AsBefore (w.withTable kind v) := by
  refine ⟨rfl, rfl, rfl, fun h hlive => ?_⟩
  have ht : t.WellFormed := (hw.thread.slot kind t hs).toWellFormed
  by_cases hk : h.kind = kind
  · subst hk
    rw [Call.reads_withTable (ht.of_cleaned hc) hlive, Call.reads_present hs ht hlive]
    exact hc.valueOf? ht.toSound hlive
  · refine Call.reads_congr ?_ rfl rfl
    exact (Thread.slot_setSlot_of_ne _ hk _).trans (Thread.slot_markUse _ _ _)

theorem asBefore_marked (w : World) (kind : Kind) : w.AsBefore (w.marked kind) :=
  ⟨rfl, rfl, rfl, fun _ _ => Call.reads_congr (Thread.slot_markUse _ _ _) rfl rfl⟩

end World

namespace Handle

/-- A lookup that finds nothing changes no value. -/
theorem asBefore_lookedUp (hw : w.Whole) (hlive : w.live h.identity = true) (hreads : w.reads h = none) :
    w.AsBefore (h.lookedUp w).world := by
  cases hs : w.thread.slot h.kind with
  | absent =>
    simp only [lookedUp, Call.updated, hs]
    exact w.asBefore_marked h.kind
  | destroyed =>
    simp only [lookedUp, Call.updated, hs]
    exact w.asBefore_marked h.kind
  | present t =>
    have hfound : (t.get? w.live h.identity).1 = none := by
      unfold World.reads at hreads
      rwa [hs] at hreads
    obtain ⟨-, -, out, hc, -⟩ := (hw.thread.slot h.kind t hs).toWellFormed.get? hlive
    simp only [lookedUp, Call.updated, hs, hfound]
    exact World.asBefore_withTable hw hs hc

/-- When a lookup finds nothing, all that it did was one update of the table and the ends of stale values. -/
theorem of_tryGet_none (hw : w.Whole) (hlive : w.live h.identity = true) (hlook : h.tryGet u w = .ok none q) :
    w.reads h = none ∧ ∃ starts, Releases u (h.lookedUp w).given (h.lookedUp w).world starts none q := by
  by_cases hs : w.thread.slot h.kind = .destroyed
  · have hmarked : h.tryGet u w = .ok none (w.marked h.kind) := Degraded.lookup_run hs
    rw [hmarked] at hlook
    cases hlook
    refine ⟨by simp [World.reads, hs, Slot.table?], [], ?_⟩
    simp only [lookedUp, Call.updated, hs]
    exact .done _
  · obtain ⟨hfound, starts, hrel⟩ := (tryGet_ok_iff hw hlive hs none q).1 hlook
    exact ⟨hfound.symm, starts, hrel⟩

theorem get_of_panic (hlook : h.tryGet u w = .ok none q)
    (hrun : u.construct h.identity q = .error (.panic message) q') : h.get u w = .error (.panic message) q' := by
  rw [get_of_none hlook, Exec.bind_of_error hrun]

end Handle

/-! ## Business as usual -/

/-- The state is good, and every operation does what it is meant to do. -/
structure World.Orderly (u : UserCode) (w : World) : Prop extends w.Good where
  /-- Lookups, stores, removals and installations are one complete update, and then releases. -/
  call : ∀ call : Call, call.Fit w → w.thread.slot call.kind ≠ .destroyed →
    Unlinks u (call.run u) w (call.updated w) ∧ (call.updated w).world.Whole ∧ call.Settled w (call.updated w).world
  /-- A variable that has a value keeps it, and the initializer is called for one that has none. -/
  get : ∀ h : Handle, h.identity ∈ w.inUse → w.thread.slot h.kind ≠ .destroyed →
    (∀ r, w.reads h = some r → h.Recalls u w r) ∧ (w.reads h = none → h.Initializes u w)
  /-- A thread that ends finds no value, and keeps none. -/
  ended : ∀ kind, w.thread.slot kind = .destroyed → Degraded u kind w

theorem World.Good.orderly (hu : ∀ n, u.Tame n) (hw : w.Good) : w.Orderly u where
  toGood := hw
  call call hfit hslot := by
    obtain ⟨hwhole, hsettled⟩ := Call.updated_spec hw.toWhole hfit hslot
    exact ⟨Call.unlinks u call hslot, hwhole, hsettled _⟩
  get _ hkey hslot := Handle.get_reentrant (hu _) hw hkey hslot
  ended _ hslot := Degraded.of_destroyed (hu _) hw hslot

/-! ## A panic of an initializer -/

/-- The initializer that `get` has called in the state `q` panics, and leaves the state `q'`. -/
structure Handle.Forsaken (u : UserCode) (h : Handle) (w : World) (message : String) (q q' : World) : Prop where
  /-- Nothing happens after the initializer. -/
  run : h.get u w = .error (.panic message) q'
  /-- Before it there was a lookup, which changed no value, and the ends of the stale values that it dropped. -/
  missed : w.reads h = none
  lookup : w.AsBefore (h.lookedUp w).world
  dropped : ∃ starts, Releases u (h.lookedUp w).given (h.lookedUp w).world starts none q
  waiting_eq : q'.waiting = w.waiting
  inUse_eq : q'.inUse = w.inUse
  orderly : ∀ n w₂, Course n q' w₂ → w₂.Orderly u

theorem Handle.forsaken (hu : ∀ n, u.Tame n) (hw : w.Good) (hkey : h.identity ∈ w.inUse)
    (hlook : h.tryGet u w = .ok none q) (hrun : u.construct h.identity q = .error (.panic message) q') :
    h.Forsaken u w message q q' := by
  have hlive := World.live_of_mem hkey
  obtain ⟨hreads, hdropped⟩ := of_tryGet_none hw.toWhole hlive hlook
  obtain ⟨hs, -⟩ := (Store.proceeds_lookup (hu (w.waiting.length + 1)) h.kind hkey).ok hw (Nat.le_refl _) hlook
  have hbound : w.waiting.length + 1 ≤ q.waiting.length + 1 := Nat.le_of_eq (by rw [hs.waiting_eq])
  have hs' := ((hu (w.waiting.length + 1)).construct h.identity q).panicked (hs.course.good hw) hbound hrun
  have hall := hs.trans hs'
  refine ⟨get_of_panic hlook hrun, hreads, asBefore_lookedUp hw.toWhole hlive hreads, hdropped, hall.waiting_eq,
    hall.inUse_eq, fun n w₂ hc => ?_⟩
  exact (hc.good (hall.course.good hw)).orderly hu

/-! ## A panic of a derivation -/

namespace Exec

variable {σ α β : Type} {x : Exec σ α} {f : α → Exec σ β} {c d : Exec σ Unit} {s s' : σ}

/-- A panic goes on as the same panic, with one cleanup after the other. -/
theorem onPanic_of_resume (hx : x s = resume message c s') :
    onPanic x d s = resume message (do c; d) s' := by
  rw [onPanic_run, hx, resume_run, resume_run]
  rcases hc : c s' with ⟨_, s₁⟩ | ⟨i, s₁⟩
  · rw [bind_of_ok hc]
    exact resume_run message d s₁
  · rw [bind_of_error hc]

/-- A panic that goes on is no result, whatever the result would have been. -/
theorem resume_error (message : String) (c : Exec σ Unit) (s : σ) :
    ∃ i s', (resume message c : Exec σ α) s = .error i s' ∧ (resume message c : Exec σ β) s = .error i s' := by
  rw [resume_run, resume_run]
  rcases c s with ⟨_, s'⟩ | ⟨_, s'⟩
  · exact ⟨.panic message, s', rfl, rfl⟩
  · exact ⟨.abort, s', rfl, rfl⟩

theorem resume_panic_iff {other : String} :
    (resume message c : Exec σ α) s = .error (.panic other) s' ↔ other = message ∧ c s = .ok () s' := by
  rw [resume_run]
  rcases c s with ⟨_, q⟩ | ⟨i, q⟩
  · constructor
    · rintro ⟨⟩
      exact ⟨rfl, rfl⟩
    · rintro ⟨rfl, ⟨⟩⟩
      rfl
  · exact ⟨nofun, nofun⟩

theorem bind_of_resume (hx : x s = resume message c s') : (x >>= f) s = resume message c s' := by
  obtain ⟨i, q, hα, hβ⟩ := @resume_error σ α β message c s'
  rw [hβ]
  exact bind_of_error (hx.trans hα)

end Exec

namespace Inheritance

/-- A capture of the table `t` has made the given turns, and the derivation for the entry `e` that comes next panics.
It was called in the state `m` and leaves the state `q`. -/
structure BreaksOff (u : UserCode) (w : World) (t : Table Ref) (turns : List (Turn Ref World)) (e : Entry Ref)
    (m : World) (message : String) (q : World) : Prop where
  place : w.thread.inheritable = .present t
  entries : ∃ rest, t.entries = turns.map Turn.entry ++ e :: rest
  tour : Tour World.live (Asked u) (w.snapshot t) turns m
  live : m.live e.key = true
  derivation : ∃ x, m.variableOf? e.key = some x ∧ x.recipe.derivation ≠ none
  panics : u.derive e.key e.value { m with inUse := e.key :: m.inUse } = .error (.panic message) q

/-- The child's table as far as it has been made. -/
def unfinished (t : Table Ref) (turns : List (Turn Ref World)) : Table Ref :=
  (Table.empty t.capacity).endow (heirsOf turns)

theorem capture_run (ht : w.thread.inheritable = .present t) :
    capture u w = (do
      let child ← Exec.onPanic (Table.walk World.live (childValue u) (Table.empty t.capacity) t.entries)
        (Action.releaseAll u t.values)
      Action.report (.event child.forkedEvent)
      Action.releaseAll u t.values
      return ⟨some child⟩ : Action Inheritance) (w.snapshot t) := by
  have hslot : Action.slot .inheritable w = .ok (.present t) (w.marked .inheritable) := by
    rw [Action.slot_run, Thread.slot, ht]
    rfl
  unfold capture
  rw [Exec.bind_of_ok hslot]
  exact Exec.bind_of_ok (forM_retain t.values (w.marked .inheritable))

/-- What is done when a capture breaks off: the values derived so far are let go of, and then the snapshot. -/
theorem capture_of_breaksOff (hb : BreaksOff u w t turns e m message q) :
    capture u w = (Exec.resume message do
      Action.releaseAll u (unfinished t turns).values
      Action.releaseAll u t.values : Action Inheritance) { q with inUse := q.inUse.erase e.key } := by
  obtain ⟨rest, hrest⟩ := hb.entries
  obtain ⟨x, hx, hd⟩ := hb.derivation
  have hwalk : Table.walk World.live (childValue u) (Table.empty t.capacity) t.entries (w.snapshot t) =
      Exec.resume message (Action.releaseAll u (unfinished t turns).values)
        { q with inUse := q.inUse.erase e.key } := by
    obtain ⟨i, q', hvalue, hwhole⟩ := Exec.resume_error message (Action.releaseAll u (unfinished t turns).values)
      { q with inUse := q.inUse.erase e.key }
    rw [hwhole, hrest, Table.walk_of_tour (Asked u) (fun child _ _ _ _ h => childValue_of_asked h child) hb.tour]
    refine Table.walk_cons_error hb.live ?_ rest
    exact (childValue_of_panic hx hd hb.panics _).trans hvalue
  rw [capture_run hb.place]
  exact Exec.bind_of_resume (Exec.onPanic_of_resume hwalk)

/-- A capture that breaks off as described has no result. -/
structure Forsaken (u : UserCode) (w : World) (t : Table Ref) (turns : List (Turn Ref World)) (e : Entry Ref)
    (message : String) (q : World) : Prop where
  /-- It ends in a panic or, if the end of a value panics as well, nothing can go on. What became of the tables is the
  doing of derivations and of the ends of values. -/
  no_result : ∃ i w', capture u w = .error i w' ∧ u.Trail w w'
  /-- After the derivation, the values derived so far are let go of, then the references of the snapshot. -/
  run : ∀ other w', capture u w = .error (.panic other) w' ↔ other = message ∧ ∃ starts q' starts',
    Releases u (unfinished t turns).values { q with inUse := q.inUse.erase e.key } starts none q' ∧
    Releases u t.values q' starts' none w'
  derived : (unfinished t turns).values.Perm (turns.filterMap Turn.heir)
  /-- No child thread starts. -/
  no_thread : ∀ i w', capture u w = .error i w' → ∀ runThread how steps, how ≠ .plain →
    Script.spawn u runThread how steps w = .error i w'
  /-- No capture is kept. -/
  no_capture : ∀ i w', capture u w = .error i w' → ∀ name, Script.capture u name w = .error i w'
  orderly : ∀ other w', capture u w = .error (.panic other) w' → w'.waiting = w.waiting ∧ w'.inUse = w.inUse ∧
    ∀ n w₂, Course n w' w₂ → w₂.Orderly u

theorem spawn_of_error {i : Interrupt} (hrun : capture u w = .error i w')
    (runThread : List Step → Action (ThreadReport Reply)) {how : Spawn} (hhow : how ≠ .plain) (steps : List Step) :
    Script.spawn u runThread how steps w = .error i w' := by
  cases how with
  | plain => exact absurd rfl hhow
  | inheriting => exact Exec.bind_of_error hrun
  | named name => exact Exec.bind_of_error hrun

theorem values_unfinished (ht : t.WellFormed) (hb : BreaksOff u w t turns e m message q) :
    (unfinished t turns).values.Perm (turns.filterMap Turn.heir) := by
  obtain ⟨rest, hrest⟩ := hb.entries
  have hkeys : ((heirsOf turns).map Entry.key).Sublist (t.entries.map Entry.key) := by
    rw [hrest, List.map_append]
    exact (keys_heirsOf_sublist turns).trans (List.sublist_append_left _ _)
  obtain ⟨-, -, hent⟩ := ht.endow hkeys fun f hf => by
    obtain ⟨τ, hτ, value, -, rfl⟩ := mem_heirsOf.1 hf
    refine ht.hash_eq τ.entry ?_
    rw [hrest]
    exact List.mem_append_left _ (List.mem_map_of_mem hτ)
  rw [← values_heirsOf]
  exact hent.map Entry.value

theorem forsaken (hu : ∀ n, u.Tame n) (hw : w.Good) (hb : BreaksOff u w t turns e m message q) :
    Forsaken u w t turns e message q := by
  have hrun := capture_of_breaksOff hb
  have ht : t.WellFormed := (hw.thread.inheritable t hb.place).toWellFormed
  refine ⟨?_, fun other w' => ?_, values_unfinished ht hb, fun i w' herr runThread how steps hhow =>
    spawn_of_error herr runThread hhow steps, fun i w' herr name => Exec.bind_of_error herr, fun i w' herr => ?_⟩
  · obtain ⟨i, w', herr, -⟩ := @Exec.resume_error World Inheritance Inheritance message (do
      Action.releaseAll u (unfinished t turns).values
      Action.releaseAll u t.values) { q with inUse := q.inUse.erase e.key }
    have hguided := guided_capture (u := u) w
    rw [hrun.trans herr] at hguided
    exact ⟨i, w', hrun.trans herr, hguided.1⟩
  · rw [hrun, Exec.resume_panic_iff]
    refine and_congr_right fun _ => ?_
    constructor
    · intro hall
      obtain ⟨_, q', hderived, hsnapshot⟩ := Exec.bind_ok hall
      obtain ⟨starts, hrel⟩ := (Action.releaseAll_eq_iff (m := none)).1 hderived
      obtain ⟨starts', hrel'⟩ := (Action.releaseAll_eq_iff (m := none)).1 hsnapshot
      exact ⟨starts, q', starts', hrel, hrel'⟩
    · rintro ⟨starts, q', starts', hrel, hrel'⟩
      exact (Exec.bind_of_ok (Action.releaseAll_of_releases hrel)).trans (Action.releaseAll_of_releases hrel')
  · have hs := (proceeds_capture (hu (w.waiting.length + 1)) w).panicked hw (Nat.le_refl _) herr
    exact ⟨hs.waiting_eq, hs.inUse_eq, fun n w₂ hc => (hc.good (hs.course.good hw)).orderly hu⟩

end Inheritance

/-- User code may panic in an initializer or in a derivation, after whatever it has done before. -/
theorem World.Good.after_panics (hu : ∀ n, u.Tame n) (hw : w.Good) :
    (∀ (h : Handle) q message q', h.identity ∈ w.inUse → h.tryGet u w = .ok none q →
      u.construct h.identity q = .error (.panic message) q' → h.Forsaken u w message q q') ∧
    ∀ t turns e m message q, Inheritance.BreaksOff u w t turns e m message q →
      Inheritance.Forsaken u w t turns e message q :=
  ⟨fun _ _ _ _ hkey hlook hrun => Handle.forsaken hu hw hkey hlook hrun,
    fun _ _ _ _ _ _ hb => Inheritance.forsaken hu hw hb⟩

def World.twoValues : Table Ref := ((Table.singleton ⟨2, 2⟩ 0).insert (fun _ => true) ⟨3, 3⟩ 1).1

/-- A thread with values of two inheritable variables, about to get the value of a plain one. That one's initializer
gives another variable a value, then panics. The derivation of the first inheritable variable makes a value; that of
the second takes the value of the first away, then panics. -/
def World.fragile : World :=
  { World.start with
    catalog := #[
      ⟨⟨0, 0⟩, .plain, 0, ⟨.scripted ⟨.null, none, [.set 1 .null []], none, some "first", none, []⟩, none⟩, 0⟩,
      ⟨⟨1, 1⟩, .plain, 1, ⟨.blank, none⟩, 0⟩,
      ⟨⟨2, 2⟩, .inheritable, 2, ⟨.blank, some ⟨none, none, none, [], none, [], id⟩⟩, 1⟩,
      ⟨⟨3, 3⟩, .inheritable, 3, ⟨.blank, some ⟨none, none, none, [.remove 2], some "second", [], id⟩⟩, 1⟩]
    handles := ⟨[(0, ⟨.plain, ⟨0, 0⟩⟩), (1, ⟨.plain, ⟨1, 1⟩⟩), (2, ⟨.inheritable, ⟨2, 2⟩⟩),
      (3, ⟨.inheritable, ⟨3, 3⟩⟩)]⟩
    inUse := [⟨0, 0⟩]
    objects := #[⟨.null, [], 1⟩, ⟨.null, [], 1⟩]
    thread := { Thread.start with inheritable := .present twoValues } }

theorem World.good_fragile : fragile.Good := by
  have hinheritable : ∀ t, fragile.thread.inheritable = .present t → t.Whole := by
    rintro _ ⟨⟩
    exact ⟨(Op.effect_set (Table.wellFormed_singleton ⟨2, 2⟩ 0).1 rfl 1).wellFormed, rfl⟩
  refine ⟨⟨⟨nofun, hinheritable⟩, nofun, nofun⟩, fun r howns => ?_⟩
  cases howns with
  | running kind h =>
    cases kind with
    | plain => cases h
    | inheritable =>
      have hr : r ∈ [0, 1] := h
      simp only [List.mem_cons, List.not_mem_nil, or_false] at hr
      rcases hr with rfl | rfl
      · decide
      · decide
  | waiting t ht => cases ht
  | captured name c hc => cases hc

/-- The same thread in the middle of a capture, between its two derivations. -/
def World.halfway : World :=
  { fragile with
    objects := #[⟨.null, [], 2⟩, ⟨.null, [], 2⟩, ⟨.null, [], 1⟩]
    thread := fragile.thread.markUse .inheritable
    log := #[.derivationCalled 2 0] }

/-- The variable whose initializer panicked has no value afterwards, the one that the initializer set has, and a later
`get` calls the initializer again. The capture gives up the value that it has derived, and the thread keeps the value
that the derivations did not remove. -/
theorem World.after_panics_of_fragile :
    (∃ q q', Handle.Forsaken (Script.watchedCode false (fun _ => false) 1) ⟨.plain, ⟨0, 0⟩⟩ fragile "first" q q' ∧
      q'.reads ⟨.plain, ⟨1, 1⟩⟩ = some 2 ∧ q'.reads ⟨.plain, ⟨0, 0⟩⟩ = none ∧
      Handle.Initializes (Script.watchedCode false (fun _ => false) 1) ⟨.plain, ⟨0, 0⟩⟩ q') ∧
    ∃ t turns e q w', Inheritance.Forsaken (Script.watchedCode false (fun _ => false) 1) fragile t turns e "second" q ∧
      turns.filterMap Turn.heir = [2] ∧
      Inheritance.capture (Script.watchedCode false (fun _ => false) 1) fragile = .error (.panic "second") w' ∧
      (w'.object 2).refs = 0 ∧ w'.reads ⟨.inheritable, ⟨2, 2⟩⟩ = none ∧
      w'.reads ⟨.inheritable, ⟨3, 3⟩⟩ = some 1 := by
  obtain ⟨hget, hcapture⟩ := good_fragile.after_panics (fun _ => Script.tame_watchedCode false (fun _ => false) 1)
  constructor
  · obtain ⟨q, q', hlook, hrun, hset, hunset, hslot⟩ : ∃ q q',
        Handle.tryGet (Script.watchedCode false (fun _ => false) 1) ⟨.plain, ⟨0, 0⟩⟩ fragile = .ok none q ∧
        (Script.watchedCode false (fun _ => false) 1).construct ⟨0, 0⟩ q = .error (.panic "first") q' ∧
        q'.reads ⟨.plain, ⟨1, 1⟩⟩ = some 2 ∧ q'.reads ⟨.plain, ⟨0, 0⟩⟩ = none ∧ q'.thread.slot .plain ≠ .destroyed :=
      ⟨_, _, rfl, rfl, rfl, rfl, nofun⟩
    have hforsaken := hget ⟨.plain, ⟨0, 0⟩⟩ q "first" q' (List.mem_singleton_self _) hlook hrun
    have hkey : ⟨0, 0⟩ ∈ q'.inUse := by
      rw [hforsaken.inUse_eq]
      exact List.mem_singleton_self _
    have horderly := hforsaken.orderly 0 q' .refl
    exact ⟨q, q', hforsaken, hset, hunset, (horderly.get ⟨.plain, ⟨0, 0⟩⟩ hkey hslot).2 hunset⟩
  · have hfirst : (Script.watchedCode false (fun _ => false) 1).derive ⟨2, 2⟩ 0
        { fragile.snapshot twoValues with inUse := [⟨2, 2⟩, ⟨0, 0⟩] } =
          .ok 2 { halfway with inUse := [⟨2, 2⟩, ⟨0, 0⟩] } := rfl
    have hasked := @Asked.derived _ (.of ⟨2, 2⟩ 0) (fragile.snapshot twoValues) _ _ _ rfl nofun hfirst
    obtain ⟨q, hbreaks⟩ : ∃ q, Inheritance.BreaksOff (Script.watchedCode false (fun _ => false) 1) fragile twoValues
        [⟨.of ⟨2, 2⟩ 0, _, some 2, halfway⟩] (.of ⟨3, 3⟩ 1) halfway "second" q :=
      ⟨_, rfl, ⟨[], rfl⟩, .asked rfl hasked (.nil _), rfl, ⟨_, rfl, nofun⟩, rfl⟩
    exact ⟨_, _, _, q, _, hcapture _ _ _ _ _ q hbreaks, rfl, rfl, rfl, rfl, rfl⟩

end PerThread
