import PerThread.Proofs.Session.Teardown
import PerThread.Proofs.Session.Unlink

/-!
# The first value of a variable

A variable that has no value on the running thread gets one from its initializer. Between the lookup that finds
nothing and the store that follows, the initializer may do anything that user code can do. It may use the variable
itself: set it, take its value away, or get a value of its own by another call of the initializer, which displaces
nothing or something, and is displaced in its turn. So the store finds a table that the lookup has not seen.

`Initializes` says what `get` makes of that. It calls the initializer once, in the state that the lookup leaves, and
has the value made there as its result. The store puts this value in the place of whatever the variable has by then
(`Supersedes`), and only afterwards lets go of what was displaced. A variable that has a value keeps it, and the
initializer is not called (`Recalls`).
-/

namespace PerThread

open Action (Fresh)

variable {u v : UserCode} {w w' q q' : World} {h : Handle} {a r : Ref}

/-! ## Which user code an operation calls -/

/-- How references are let go of depends on what happens at the end of values only. -/
theorem Action.release_congr (hv : v.finalize = u.finalize) : release v = release u := by
  unfold release
  rw [hv]

theorem Action.releaseAll_congr (hv : v.finalize = u.finalize) : releaseAll v = releaseAll u := by
  funext rs
  induction rs with
  | nil => rfl
  | cons r rest ih =>
    unfold releaseAll
    rw [release_congr hv, ih]

theorem Store.lookup_congr (hv : v.finalize = u.finalize) : lookup v = lookup u := by
  unfold lookup
  rw [Action.release_congr hv, Action.releaseAll_congr hv]

theorem Store.store_congr (hv : v.finalize = u.finalize) : store v = store u := by
  unfold store
  rw [Action.release_congr hv, Action.releaseAll_congr hv]

/-! ## The update of a store -/

/-- A table that has taken a value in has one entry of its identity. What it had before, and the value, are in it or
given up: given up are values of identities that nobody holds, and the one that it had for this identity. -/
theorem Table.Whole.insert_displaces {live : Liveness} {t : Table Ref} (h : t.Whole) {key : Identity}
    (hlive : live key = true) (r : Ref) :
    (t.insert live key r).1.entries.filter (·.key == key) = [.of key r] ∧
      ((t.insert live key r).1.values ++ (t.insert live key r).1.reclaimed).Perm (t.values ++ [r]) ∧
      (t.insert live key r).1.reclaimed.Perm
        ((t.dropped live (t.insert live key r).1).map Entry.value ++ (t.valueOf? key).toList) := by
  have heff := Op.effect_set h.toWellFormed hlive r
  have hmem : Entry.of key r ∈ (t.insert live key r).1.entries :=
    (heff.written _ (Op.writes_set.2 rfl)).2 (List.mem_singleton_self _)
  have hconserved := heff.conserved
  simp only [Op.handed, Op.passed?, h.reclaimed_eq, List.append_nil, Option.toList_some] at hconserved
  obtain ⟨gone, hgone, hperm⟩ := heff.given_up h.nodup fun k hk => by
    cases hk
    exact hlive
  rw [h.reclaimed_eq, List.nil_append] at hgone
  rw [← hgone] at hperm
  exact ⟨filter_key heff.wellFormed.nodup hmem, hconserved, hperm⟩

/-- The same of the running thread's table, which is made if there is none. -/
theorem Call.set_displaces (hw : w.Whole) (hlive : w.live h.identity = true) (hslot : w.thread.slot h.kind ≠ .destroyed)
    (r : Ref) :
    ∃ (t : Table Ref) (dropped : List (Entry Ref)),
      ((set h r).updated w).world.thread.slot h.kind = .present t ∧
      t.entries.filter (·.key == h.identity) = [.of h.identity r] ∧
      (t.values ++ ((set h r).updated w).given).Perm ((w.thread.slot h.kind).values ++ [r]) ∧
      (∀ e ∈ dropped, w.live e.key = false) ∧
      ((set h r).updated w).given.Perm (dropped.map Entry.value ++ (w.reads h).toList) := by
  cases hs : w.thread.slot h.kind with
  | destroyed => exact absurd hs hslot
  | absent =>
    have hreads : w.reads h = none := by simp [World.reads, hs, Slot.table?]
    have hentries : ({ Table.singleton h.identity r with reclaimed := [] } : Table Ref).entries = [.of h.identity r] :=
      (Table.wellFormed_singleton h.identity r).2
    simp only [updated, hs]
    refine ⟨_, [], Thread.slot_setSlot_self _ _ _, ?_, ?_, List.forall_mem_nil _, ?_⟩
    · rw [hentries]
      simp [Entry.of]
    · rw [Table.values, hentries]
      exact List.Perm.refl _
    · rw [hreads]
      exact List.Perm.refl _
  | present t =>
    have ht : t.Whole := hw.thread.slot h.kind t hs
    obtain ⟨hentry, hconserved, hgone⟩ := ht.insert_displaces hlive r
    have hreads : w.reads h = t.valueOf? h.identity := reads_present hs ht.toWellFormed hlive
    have hplace : ((set h r).updated w).world.thread.slot h.kind =
        .present { (t.insert w.live h.identity r).1 with reclaimed := [] } := by
      simp only [updated, hs]
      cases (t.insert w.live h.identity r).2 <;> exact Thread.slot_setSlot_self _ _ _
    have hgiven : ((set h r).updated w).given = (t.insert w.live h.identity r).1.reclaimed := by
      simp only [updated, hs]
    rw [hgiven, hreads]
    refine ⟨_, t.dropped w.live (t.insert w.live h.identity r).1, hplace, hentry, hconserved, ?_, hgone⟩
    intro e he
    simpa [Entry.stale] using (Bool.and_eq_true_iff.1 (List.mem_filter.1 he).2).2

/-! ## Getting a value -/

namespace Handle

/-- The table updated by the lookup that comes first. -/
def lookedUp (h : Handle) (w : World) : Updated := (Call.tryGet h).updated w

/-- The table updated with a value made by the initializer, which has left the state `q`. The table gets a reference of
its own. -/
def stored (h : Handle) (a : Ref) (q : World) : Updated := (Call.set h a).updated (q.recount a (· + 1))

theorem tryGet_ok_iff (hw : w.Whole) (hlive : w.live h.identity = true) (hslot : w.thread.slot h.kind ≠ .destroyed)
    (found : Option Ref) (w' : World) :
    h.tryGet u w = .ok found w' ↔ found = w.reads h ∧ ∃ starts,
      Releases u (h.lookedUp w).given (h.lookedUp w).world starts none w' := by
  rw [← (Call.updated_tryGet hw hlive hslot).2.2]
  exact (Call.unlinks_tryGet u hslot).ok_iff found w'

theorem set_ok_iff (hslot : w.thread.slot h.kind ≠ .destroyed) (r : Ref) (w' : World) :
    h.set u r w = .ok () w' ↔ ∃ starts,
      Releases u ((Call.set h r).updated w).given ((Call.set h r).updated w).world starts none w' := by
  have hresult : ((Call.set h r).updated w).result = none := by
    cases hs : w.thread.slot h.kind <;> simp [Call.updated, hs]
  have hiff := (Call.unlinks_set u r hslot).ok_iff none w'
  have hrun : (Call.set h r).run u w = .ok none w' ↔ none = none ∧ h.set u r w = .ok () w' := Exec.returning_ok_iff
  rw [hrun, hresult] at hiff
  simpa using hiff

theorem stored_ok_iff (hslot : q.thread.slot h.kind ≠ .destroyed) (a : Ref) (w' : World) :
    h.set u a (q.recount a (· + 1)) = .ok () w' ↔ ∃ starts,
      Releases u (h.stored a q).given (h.stored a q).world starts none w' := by
  have hcounted : (q.recount a (· + 1)).thread.slot h.kind ≠ .destroyed := hslot
  exact set_ok_iff hcounted a w'

/-- The value `r` that the variable has is the result, and the initializer is not called. -/
structure Recalls (u : UserCode) (h : Handle) (w : World) (r : Ref) : Prop where
  ok_iff : ∀ a w', h.get u w = .ok a w' ↔ a = r ∧ ∃ starts,
    Releases u (h.lookedUp w).given (h.lookedUp w).world starts none w'
  uncalled : ∀ v : UserCode, v.finalize = u.finalize → h.get v w = h.get u w

/-- What the store does that follows a call of the initializer. The call has made `a` and left the state `q`. -/
structure Supersedes (h : Handle) (a : Ref) (q : World) : Prop where
  /-- Every call makes a value of its own. -/
  another : q.reads h ≠ some a
  whole : (h.stored a q).world.Whole
  reads : (h.stored a q).world.reads h = some a
  /-- The table has no other entry of the variable, and has lost nothing but what it gives up. -/
  place : ∃ t : Table Ref, (h.stored a q).world.thread.slot h.kind = .present t ∧
    t.entries.filter (·.key == h.identity) = [.of h.identity a] ∧
    (t.values ++ (h.stored a q).given).Perm ((q.thread.slot h.kind).values ++ [a])
  /-- Given up are the value that the variable had, and those of variables that nobody holds. -/
  given : ∃ dropped : List (Entry Ref), (∀ e ∈ dropped, q.live e.key = false) ∧
    (h.stored a q).given.Perm (dropped.map Entry.value ++ (q.reads h).toList)

/-- The variable has no value. The lookup ends in `q`, there the initializer makes `a` and leaves the state `q'`, and
`a` is stored. -/
structure Initializes (u : UserCode) (h : Handle) (w : World) : Prop where
  /-- Whatever the ends of values do, the result is what the call has made. -/
  ok_iff : ∀ a w', h.get u w = .ok a w' ↔ ∃ starts q q' starts',
    Releases u (h.lookedUp w).given (h.lookedUp w).world starts none q ∧
    u.construct h.identity q = .ok a q' ∧
    Releases u (h.stored a q').given (h.stored a q').world starts' none w'
  /-- The initializer is called in no other state, and no other initializer is called. -/
  called_once : ∀ v : UserCode, v.finalize = u.finalize →
    (∀ starts q, Releases u (h.lookedUp w).given (h.lookedUp w).world starts none q →
      v.construct h.identity q = u.construct h.identity q) → h.get v w = h.get u w
  supersedes : ∀ starts q a q',
    Releases u (h.lookedUp w).given (h.lookedUp w).world starts none q →
    u.construct h.identity q = .ok a q' → h.Supersedes a q'

/-! ### The run of `get` -/

/-- The initializer is called where the lookup ends without a value, and nowhere else. -/
theorem get_congr (hv : v.finalize = u.finalize)
    (hcall : ∀ q, h.tryGet u w = .ok none q → v.construct h.identity q = u.construct h.identity q) :
    h.get v w = h.get u w := by
  unfold get
  rw [Store.lookup_congr hv, Store.store_congr hv, Action.release_congr hv]
  rcases hlook : Store.lookup u h.kind h.identity w with ⟨_ | r, q⟩ | ⟨i, q⟩
  · rw [Exec.bind_of_ok hlook, Exec.bind_of_ok hlook]
    show EStateM.bind (v.construct h.identity) _ q = EStateM.bind (u.construct h.identity) _ q
    unfold EStateM.bind
    rw [hcall q hlook]
  · rw [Exec.bind_of_ok hlook, Exec.bind_of_ok hlook]
  · rw [Exec.bind_of_error hlook, Exec.bind_of_error hlook]

/-- After the lookup comes the initializer, and after that the store, whose outcome is that of the whole. -/
theorem get_of_none (hlook : h.tryGet u w = .ok none q) :
    h.get u w = (do
      let r ← u.construct h.identity
      Action.retain r
      Exec.onPanic (h.set u r) (Action.release u r)
      return r : Action Ref) q := Exec.bind_of_ok hlook

theorem get_ok_iff : h.get u w = .ok a w' ↔ h.tryGet u w = .ok (some a) w' ∨ ∃ q q',
    h.tryGet u w = .ok none q ∧ u.construct h.identity q = .ok a q' ∧
      h.set u a (q'.recount a (· + 1)) = .ok () w' := by
  have hstore {q' : World} {r : Ref} : (do
      Action.retain r
      Exec.onPanic (h.set u r) (Action.release u r)
      return r : Action Ref) q' = .ok a w' ↔ a = r ∧ h.set u r (q'.recount r (· + 1)) = .ok () w' := by
    refine Iff.trans (Iff.of_eq (congrArg (· = _) (Exec.bind_of_ok rfl))) ?_
    rw [Exec.returning_ok_iff, Exec.onPanic_ok_iff]
  constructor
  · intro hget
    obtain ⟨found, q, hlook, -⟩ := Exec.bind_ok hget
    cases found with
    | some r =>
      have hrun : h.get u w = .ok r q := Exec.bind_of_ok hlook
      rw [hrun] at hget
      cases hget
      exact Or.inl hlook
    | none =>
      rw [get_of_none hlook] at hget
      obtain ⟨r, q', hrun, hrest⟩ := Exec.bind_ok hget
      obtain ⟨rfl, hset⟩ := hstore.1 hrest
      exact Or.inr ⟨q, q', hlook, hrun, hset⟩
  · rintro (hlook | ⟨q, q', hlook, hrun, hset⟩)
    · exact Exec.bind_of_ok hlook
    · rw [get_of_none hlook, Exec.bind_of_ok hrun]
      exact hstore.2 ⟨rfl, hset⟩

/-! ### The variable has a value -/

theorem recalls (u : UserCode) (hw : w.Whole) (hlive : w.live h.identity = true)
    (hslot : w.thread.slot h.kind ≠ .destroyed) (hreads : w.reads h = some r) : h.Recalls u w r := by
  have hlook := @tryGet_ok_iff u w h hw hlive hslot
  rw [hreads] at hlook
  refine ⟨fun a w' => ?_, fun v hv => get_congr hv fun q hnone => ?_⟩
  · simp [get_ok_iff, hlook]
  · cases ((hlook none q).1 hnone).1

/-! ### The variable has no value -/

/-- Neither the ends of values nor the initializer take the handle or the place of the table away. -/
theorem state_of_construct (hu : u.Tame (w.waiting.length + 1)) (hw : w.Good) (hkey : h.identity ∈ w.inUse)
    (hslot : w.thread.slot h.kind ≠ .destroyed) (hlook : h.tryGet u w = .ok none q)
    (hrun : u.construct h.identity q = .ok a q') :
    q'.Good ∧ h.identity ∈ q'.inUse ∧ q'.thread.slot h.kind ≠ .destroyed ∧ Fresh a q' := by
  obtain ⟨hs, -⟩ := (Store.proceeds_lookup hu h.kind hkey).ok hw (Nat.le_refl _) hlook
  have hbound : w.waiting.length + 1 ≤ q.waiting.length + 1 := Nat.le_of_eq (by rw [hs.waiting_eq])
  obtain ⟨hs', hfresh⟩ := (hu.construct h.identity q).ok (hs.course.good hw) hbound hrun
  have hall := hs.trans hs'
  exact ⟨hall.course.good hw, hall.mem_inUse hkey, hall.lasting (World.lasting_standing h.kind) hslot, hfresh⟩

theorem owns_of_reads (hw : w.Whole) (hlive : w.live h.identity = true) (hreads : w.reads h = some r) : w.Owns r := by
  cases hs : w.thread.slot h.kind with
  | present t =>
    rw [Call.reads_present hs (hw.thread.slot h.kind t hs).toWellFormed hlive] at hreads
    refine .running h.kind ?_
    rw [hs]
    exact Table.mem_values_of_valueOf? hreads
  | _ => simp [World.reads, hs, Slot.table?] at hreads

theorem supersedes (hq : q.Whole) (hlive : q.live h.identity = true) (hslot : q.thread.slot h.kind ≠ .destroyed)
    (ha : ¬ q.Owns a) : h.Supersedes a q := by
  have hcounted : (q.recount a (· + 1)).Whole := (World.Quiet.recount q a _).whole_of hq
  have hreads : (q.recount a (· + 1)).reads h = q.reads h := Call.reads_congr rfl rfl rfl
  obtain ⟨hwhole, hnew⟩ := Call.updated_set hcounted hlive hslot a
  obtain ⟨t, dropped, hplace, hentry, hconserved, hdropped, hgiven⟩ := Call.set_displaces hcounted hlive hslot a
  rw [hreads] at hgiven
  refine ⟨fun hold => ha (owns_of_reads hq hlive hold), hwhole, hnew, ⟨t, hplace, hentry, hconserved⟩, ?_⟩
  exact ⟨dropped, hdropped, hgiven⟩

theorem initializes (hu : u.Tame (w.waiting.length + 1)) (hw : w.Good) (hkey : h.identity ∈ w.inUse)
    (hslot : w.thread.slot h.kind ≠ .destroyed) (hreads : w.reads h = none) : h.Initializes u w := by
  have hlook := @tryGet_ok_iff u w h hw.toWhole (World.live_of_mem hkey) hslot
  rw [hreads] at hlook
  have hstate {q q' : World} {a : Ref} {starts : List (Ref × World)}
      (hrel : Releases u (h.lookedUp w).given (h.lookedUp w).world starts none q)
      (hrun : u.construct h.identity q = .ok a q') :=
    state_of_construct hu hw hkey hslot ((hlook none q).2 ⟨rfl, starts, hrel⟩) hrun
  refine ⟨fun a w' => ?_, fun v hv hcall => get_congr hv fun q hnone => ?_, fun starts q a q' hrel hrun => ?_⟩
  · rw [get_ok_iff]
    constructor
    · rintro (hsome | ⟨q, q', hnone, hrun, hset⟩)
      · cases ((hlook _ _).1 hsome).1
      · obtain ⟨-, starts, hrel⟩ := (hlook _ _).1 hnone
        obtain ⟨-, -, hslot', -⟩ := hstate hrel hrun
        obtain ⟨starts', hrel'⟩ := (stored_ok_iff hslot' a w').1 hset
        exact ⟨starts, q, q', starts', hrel, hrun, hrel'⟩
    · rintro ⟨starts, q, q', starts', hrel, hrun, hrel'⟩
      obtain ⟨-, -, hslot', -⟩ := hstate hrel hrun
      have hset := (stored_ok_iff hslot' a w').2 ⟨starts', hrel'⟩
      exact Or.inr ⟨q, q', (hlook _ _).2 ⟨rfl, starts, hrel⟩, hrun, hset⟩
  · obtain ⟨-, starts, hrel⟩ := (hlook _ _).1 hnone
    exact hcall starts q hrel
  · obtain ⟨hgood, hkey', hslot', hfresh⟩ := hstate hrel hrun
    exact supersedes hgood.toWhole (World.live_of_mem hkey') hslot' hfresh.unowned

/-- A `get` on a thread whose table is not destroyed, with an initializer that does whatever user code may do. User code
made of scripts is of this kind (`Script.tame_watchedCode`). -/
theorem get_reentrant (hu : u.Tame (w.waiting.length + 1)) (hw : w.Good) (hkey : h.identity ∈ w.inUse)
    (hslot : w.thread.slot h.kind ≠ .destroyed) :
    (∀ r, w.reads h = some r → h.Recalls u w r) ∧ (w.reads h = none → h.Initializes u w) :=
  ⟨fun _ hreads => recalls u hw.toWhole (World.live_of_mem hkey) hslot hreads, initializes hu hw hkey hslot⟩

end Handle

/-- A thread about to get a variable's first value. The first call of the initializer gets the variable's value itself,
and every value removes that of the variable when it ends. -/
def World.impatient : World :=
  { World.start with
    catalog := #[⟨⟨0, 7⟩, .plain, 0, ⟨.scripted ⟨.null, none, [.get 0], some 1, none, none, [.remove 0]⟩, none⟩, 0⟩]
    handles := ⟨[(0, ⟨.plain, ⟨0, 7⟩⟩)]⟩
    inUse := [⟨0, 7⟩] }

theorem World.good_impatient : impatient.Good := by
  refine ⟨⟨whole_start.thread, whole_start.waiting, whole_start.captures⟩, ?_⟩
  intro r howns
  exact good_start.bounded r (howns.of_eq rfl rfl rfl)

/-- The value of the inner call is displaced. Its end takes the value of the outer call out of the table, which is the
result all the same. -/
theorem Handle.get_of_impatient :
    ∃ q' w' starts, q'.reads ⟨.plain, ⟨0, 7⟩⟩ = some 0 ∧ Supersedes ⟨.plain, ⟨0, 7⟩⟩ 1 q' ∧
      (stored ⟨.plain, ⟨0, 7⟩⟩ 1 q').given = [0] ∧
      Releases (Script.watchedCode false (fun _ => false) 2) [0] (stored ⟨.plain, ⟨0, 7⟩⟩ 1 q').world starts none w' ∧
      get (Script.watchedCode false (fun _ => false) 2) ⟨.plain, ⟨0, 7⟩⟩ World.impatient = .ok 1 w' ∧
      w'.reads ⟨.plain, ⟨0, 7⟩⟩ = none := by
  obtain ⟨-, hmiss⟩ := @get_reentrant (Script.watchedCode false (fun _ => false) 2) World.impatient ⟨.plain, ⟨0, 7⟩⟩
    (Script.tame_watchedCode false _ 2) World.good_impatient (List.mem_singleton_self _) nofun
  obtain ⟨hok, -, hsupersedes⟩ := hmiss rfl
  have hruns : ∃ q' w' starts, (Script.watchedCode false (fun _ => false) 2).construct ⟨0, 7⟩
        (lookedUp ⟨.plain, ⟨0, 7⟩⟩ World.impatient).world = .ok 1 q' ∧
      q'.reads ⟨.plain, ⟨0, 7⟩⟩ = some 0 ∧ (stored ⟨.plain, ⟨0, 7⟩⟩ 1 q').given = [0] ∧
      Releases (Script.watchedCode false (fun _ => false) 2) [0] (stored ⟨.plain, ⟨0, 7⟩⟩ 1 q').world starts none w' ∧
      w'.reads ⟨.plain, ⟨0, 7⟩⟩ = none := ⟨_, _, _, rfl, rfl, rfl, .ended rfl rfl (.done _), rfl⟩
  obtain ⟨q', w', starts, hcall, hreads, hgiven, hrel, hgone⟩ := hruns
  have hsuper := hsupersedes [] _ 1 q' (.done _) hcall
  have hget := (hok 1 w').2 ⟨[], _, q', starts, .done _, hcall, hgiven ▸ hrel⟩
  exact ⟨q', w', starts, hreads, hsuper, hgiven, hrel, hget, hgone⟩

end PerThread
