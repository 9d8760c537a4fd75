import PerThread.Inheritance.Capture
import PerThread.Proofs.History.Recall
import PerThread.Proofs.Session.Course
import PerThread.Proofs.Session.Releases
import PerThread.Script.Run

/-!
# Unlinked before let go of

A lookup, a store, a removal and the installation of a capture give up references. Each does so in two parts: one
complete update of the running thread's table (`Call.updated`), and then the release of what the table gave up, in the
order in which it did. No user code runs before the update is complete, so the end of a value may use any variable,
that of the operation included: it finds the new value, no value, or the values installed. What the ends of values
do comes too late for the result of the operation, which was settled before the first of them.
-/

namespace PerThread

variable {u : UserCode} {w w' q : World} {h : Handle} {r : Ref} {t : Table Ref}

/-- What the variable of a handle reads on the running thread. -/
def World.reads (w : World) (h : Handle) : Option Ref :=
  (w.thread.slot h.kind).table?.bind fun t => (t.get? w.live h.identity).1

/-- The state with a new table of the running thread. What the table gave up is out of it. -/
def World.withTable (w : World) (kind : Kind) (t : Table Ref) : World :=
  { w with thread := (w.thread.markUse kind).setSlot kind (.present { t with reclaimed := [] }) }

/-- An operation that may give up references. -/
inductive Call where
  | tryGet (h : Handle)
  | set (h : Handle) (r : Ref)
  | remove (h : Handle)
  | install (c : Inheritance)

/-- A table updated: the result of the operation, what the table gave up, and the state. -/
structure Updated where
  result : Option Ref
  given : List Ref
  world : World

namespace Call

def kind : Call → Kind
  | .tryGet h | .set h _ | .remove h => h.kind
  | .install _ => .inheritable

def run (u : UserCode) : Call → Action (Option Ref)
  | .tryGet h => h.tryGet u
  | .set h r => do h.set u r; return none
  | .remove h => do h.remove u; return none
  | .install c => do c.install u; return none

/-- The update, on a thread whose table of that kind is not destroyed. A value found is counted once more, for the
caller. The values of a table that is replaced are given up in slot order. -/
def updated (w : World) : Call → Updated
  | .tryGet h =>
    match w.thread.slot h.kind with
    | .present t =>
      let found := t.get? w.live h.identity
      let w := w.withTable h.kind found.2
      ⟨found.1, found.2.reclaimed, found.1.elim w fun r => w.recount r (· + 1)⟩
    | _ => ⟨none, [], { w with thread := w.thread.markUse h.kind }⟩
  | .set h r =>
    match w.thread.slot h.kind with
    | .present t =>
      let (t, event) := t.insert w.live h.identity r
      let w := w.withTable h.kind t
      ⟨none, t.reclaimed, event.elim w fun e => { w with log := w.log.push (.event e) }⟩
    | _ => ⟨none, [], { w.withTable h.kind (.singleton h.identity r) with log := w.log.push (.event .allocating) }⟩
  | .remove h =>
    match w.thread.slot h.kind with
    | .present t =>
      let t := t.erase w.live h.identity
      ⟨none, t.reclaimed, w.withTable h.kind t⟩
    | _ => ⟨none, [], { w with thread := w.thread.markUse h.kind }⟩
  | .install c =>
    match c.table with
    | none => ⟨none, [], w⟩
    | some t =>
      ⟨none, (w.thread.slot .inheritable).values,
        { w with thread := (w.thread.markUse .inheritable).setSlot .inheritable (.present t) }⟩

/-- The identity of the handle is held, and a capture is whole. -/
def Fit (w : World) : Call → Prop
  | .tryGet h | .set h _ | .remove h => w.live h.identity = true
  | .install c => c.Whole

/-- The state `q` shows the update that the operation made on `w`. -/
def Settled (w q : World) : Call → Prop
  | .tryGet h => q.reads h = w.reads h
  | .set h r => q.reads h = some r
  | .remove h => q.reads h = none
  | .install c => ∀ t, c.table = some t → q.thread.inheritable = .present t

end Call

/-! ## Outcomes -/

namespace Exec

variable {σ α : Type} {x c : Exec σ Unit} {s s' : σ} {a b : α}

theorem returning_ok_iff : (do x; return a : Exec σ α) s = .ok b s' ↔ b = a ∧ x s = .ok () s' := by
  show EStateM.bind x (fun _ => pure a) s = _ ↔ _
  unfold EStateM.bind
  rcases x s with ⟨_, q⟩ | ⟨i, q⟩
  · constructor
    · rintro ⟨⟩
      exact ⟨rfl, rfl⟩
    · rintro ⟨rfl, ⟨⟩⟩
      rfl
  · exact ⟨nofun, nofun⟩

theorem returning_error_iff {i : Interrupt} : (do x; return a : Exec σ α) s = .error i s' ↔ x s = .error i s' := by
  show EStateM.bind x (fun _ => pure a) s = _ ↔ _
  unfold EStateM.bind
  rcases x s with ⟨_, q⟩ | ⟨j, q⟩
  · exact ⟨nofun, nofun⟩
  · constructor
    · rintro ⟨⟩
      rfl
    · rintro ⟨⟩
      rfl

theorem onPanic_ok_iff : Exec.onPanic x c s = .ok () s' ↔ x s = .ok () s' := by
  constructor
  · exact onPanic_ok
  · intro h
    rw [onPanic_run, h]

theorem onPanic_panic_iff {message : String} :
    Exec.onPanic x c s = .error (.panic message) s' ↔ ∃ q, x s = .error (.panic message) q ∧ c q = .ok () s' := by
  rw [onPanic_run]
  rcases x s with ⟨_, q⟩ | ⟨m | _, q⟩
  · exact ⟨nofun, nofun⟩
  · simp only [resume_run]
    rcases hc : c q with ⟨_, q'⟩ | ⟨i, q'⟩
    · constructor
      · rintro ⟨⟩
        exact ⟨q, rfl, hc⟩
      · rintro ⟨_, ⟨⟩, h⟩
        rw [hc] at h
        cases h
        rfl
    · refine ⟨nofun, ?_⟩
      rintro ⟨_, ⟨⟩, h⟩
      rw [hc] at h
      cases h
  · exact ⟨nofun, nofun⟩

end Exec

/-! ## First the update, then the releases -/

/-- After the update `c` the given references are let go of one after another, and then the operation has its result.
If a value panics as it ends, the result is lost: the reference found for the caller is let go of as well. -/
structure Unlinks (u : UserCode) (x : Action (Option Ref)) (w : World) (c : Updated) : Prop where
  ok_iff : ∀ a w', x w = .ok a w' ↔ a = c.result ∧ ∃ starts, Releases u c.given c.world starts none w'
  panic_iff : ∀ message w', x w = .error (.panic message) w' ↔
    ∃ starts q starts', Releases u c.given c.world starts (some message) q ∧
      Releases u c.result.toList q starts' none w'

/-- To let go of one reference, or of none. -/
theorem forM_release_ok {found : Option Ref} :
    (found.forM (Action.release u) : Action Unit) q = .ok () w' ↔
      ∃ starts, Releases u found.toList q starts none w' := by
  cases found with
  | none => exact @Action.releaseAll_eq_iff u q w' [] none
  | some r => exact Action.release_eq_iff (m := none)

theorem Unlinks.of_run {x : Action (Option Ref)} {c : Updated}
    (hrun : x w = (do
      Exec.onPanic (Action.releaseAll u c.given) (c.result.forM (Action.release u))
      return c.result : Action (Option Ref)) c.world) : Unlinks u x w c where
  ok_iff a w' := by
    rw [hrun, Exec.returning_ok_iff, Exec.onPanic_ok_iff]
    exact and_congr_right fun _ => Action.releaseAll_eq_iff (m := none)
  panic_iff message w' := by
    rw [hrun, Exec.returning_error_iff, Exec.onPanic_panic_iff]
    constructor
    · rintro ⟨q, hall, hcleanup⟩
      obtain ⟨starts, hrel⟩ := (Action.releaseAll_eq_iff (m := some message)).1 hall
      obtain ⟨starts', hrel'⟩ := forM_release_ok.1 hcleanup
      exact ⟨starts, q, starts', hrel, hrel'⟩
    · rintro ⟨starts, q, starts', hrel, hrel'⟩
      exact ⟨q, Action.releaseAll_of_releases hrel, forM_release_ok.2 ⟨starts', hrel'⟩⟩

/-- An operation without a result for the caller. -/
theorem Unlinks.of_releaseAll {x : Action (Option Ref)} {c : Updated} (hresult : c.result = none)
    (hrun : x w = (do Action.releaseAll u c.given; return none : Action (Option Ref)) c.world) : Unlinks u x w c := by
  refine .of_run ?_
  rw [hrun, hresult]
  have hnothing (y : Action Unit) : Exec.onPanic y (pure ()) = y := by
    funext q
    rw [Exec.onPanic_run]
    rcases y q with ⟨_, q'⟩ | ⟨_ | _, q'⟩ <;> rfl
  show _ = (do Exec.onPanic (Action.releaseAll u c.given) (pure ()); return none : Action (Option Ref)) c.world
  rw [hnothing]

/-! ## The operations -/

namespace Store

/-- A lookup in a table: the update, with the value found counted once more, and then the releases. -/
theorem lookup_run {kind : Kind} (key : Identity) (hs : w.thread.slot kind = .present t) :
    lookup u kind key w = (do
      (t.get? w.live key).1.forM Action.retain
      Exec.onPanic (Action.releaseAll u (t.get? w.live key).2.reclaimed) ((t.get? w.live key).1.forM (Action.release u))
      return (t.get? w.live key).1 : Action (Option Ref)) (w.withTable kind (t.get? w.live key).2) := by
  unfold lookup
  simp only [bind, EStateM.bind, Action.slot_run, hs]
  rfl

theorem store_run {kind : Kind} (key : Identity) (r : Ref) (hs : w.thread.slot kind = .present t) :
    store u kind key r w = (do
      (t.insert w.live key r).2.forM fun e => Action.report (.event e)
      Action.releaseAll u (t.insert w.live key r).1.reclaimed : Action Unit)
        (w.withTable kind (t.insert w.live key r).1) := by
  unfold store
  simp only [bind, EStateM.bind, Action.slot_run, hs]
  rfl

end Store

namespace Call

theorem unlinks_tryGet (u : UserCode) (hslot : w.thread.slot h.kind ≠ .destroyed) :
    Unlinks u ((tryGet h).run u) w ((tryGet h).updated w) := by
  refine .of_run ?_
  show Store.lookup u h.kind h.identity w = _
  cases hs : w.thread.slot h.kind with
  | destroyed => exact absurd hs hslot
  | absent =>
    unfold Store.lookup
    simp only [updated, hs, bind, EStateM.bind, Action.slot_run]
    rfl
  | present t =>
    rw [Store.lookup_run h.identity hs]
    simp only [updated, hs]
    cases (t.get? w.live h.identity).1 <;> rfl

theorem unlinks_set (u : UserCode) (r : Ref) (hslot : w.thread.slot h.kind ≠ .destroyed) :
    Unlinks u ((set h r).run u) w ((set h r).updated w) := by
  cases hs : w.thread.slot h.kind with
  | destroyed => exact absurd hs hslot
  | absent =>
    refine .of_releaseAll (by simp [updated, hs]) ?_
    show EStateM.bind (Store.store u h.kind h.identity r) _ w = _
    unfold Store.store
    simp only [updated, hs, bind, EStateM.bind, Action.slot_run]
    rfl
  | present t =>
    refine .of_releaseAll (by simp [updated, hs]) ?_
    show EStateM.bind (Store.store u h.kind h.identity r) _ w = _
    unfold EStateM.bind
    rw [Store.store_run h.identity r hs]
    simp only [updated, hs]
    cases (t.insert w.live h.identity r).2 <;> rfl

theorem unlinks_remove (u : UserCode) (hslot : w.thread.slot h.kind ≠ .destroyed) :
    Unlinks u ((remove h).run u) w ((remove h).updated w) := by
  cases hs : w.thread.slot h.kind with
  | destroyed => exact absurd hs hslot
  | absent =>
    refine .of_releaseAll (by simp [updated, hs]) ?_
    show EStateM.bind (Store.erase u h.kind h.identity) _ w = _
    unfold Store.erase
    simp only [updated, hs, bind, EStateM.bind, Action.slot_run]
    rfl
  | present t =>
    refine .of_releaseAll (by simp [updated, hs]) ?_
    show EStateM.bind (Store.erase u h.kind h.identity) _ w = _
    unfold EStateM.bind
    rw [Store.erase_run hs]
    simp only [updated, hs]
    rfl

theorem unlinks_install (u : UserCode) (c : Inheritance) (hslot : w.thread.inheritable ≠ .destroyed) :
    Unlinks u ((install c).run u) w ((install c).updated w) := by
  have hs : w.thread.slot .inheritable = w.thread.inheritable := rfl
  obtain ⟨_ | t⟩ := c
  · exact .of_releaseAll rfl rfl
  · refine .of_releaseAll rfl ?_
    show EStateM.bind (Inheritance.install u ⟨some t⟩) _ w = _
    unfold Inheritance.install
    simp only [updated, bind, EStateM.bind, Action.slot_run]
    cases hi : w.thread.inheritable with
    | destroyed => exact absurd hi hslot
    | absent =>
      rw [hs, hi]
      rfl
    | present previous =>
      rw [hs, hi]
      rfl

/-! ## What the update leaves -/

theorem reads_congr (hslot : q.thread.slot h.kind = w.thread.slot h.kind) (hhandles : q.handles = w.handles)
    (huse : q.inUse = w.inUse) : q.reads h = w.reads h := by
  have hlive : q.live = w.live := by
    unfold World.live
    rw [hhandles, huse]
  unfold World.reads
  rw [hslot, hlive]

/-- A table reads as the map that it is. -/
theorem reads_present (hs : w.thread.slot h.kind = .present t) (ht : t.WellFormed)
    (hlive : w.live h.identity = true) : w.reads h = t.valueOf? h.identity := by
  obtain ⟨-, -, -, -, -, hvalue⟩ := ht.get? hlive
  unfold World.reads
  rw [hs]
  exact hvalue

theorem withTable_whole (hw : w.Whole) (kind : Kind) (ht : t.WellFormed) : (w.withTable kind t).Whole := by
  have hmarked : (w.thread.markUse kind).Whole := ⟨hw.thread.plain, hw.thread.inheritable⟩
  exact ⟨hmarked.setSlot (Slot.whole_present ⟨ht.copy, rfl⟩) kind, hw.waiting, hw.captures⟩

theorem reads_withTable (ht : t.WellFormed) (hlive : w.live h.identity = true) :
    (w.withTable h.kind t).reads h = t.valueOf? h.identity := by
  have hnew : (w.withTable h.kind t).thread.slot h.kind = .present { t with reclaimed := [] } :=
    Thread.slot_setSlot_self _ _ _
  have hread := reads_present hnew ht.copy hlive
  exact hread

/-- After an operation on a whole table, the new table is whole, and the variable reads what the operation says. -/
theorem withTable_spec (hw : w.Whole) (hlive : w.live h.identity = true) (hs : w.thread.slot h.kind = .present t)
    (op : Op Ref) (hop : op.subject? = some h.identity) :
    (w.withTable h.kind (op.table w.live t)).Whole ∧
      (w.withTable h.kind (op.table w.live t)).reads h = (op.write? h.identity).getD (w.reads h) := by
  have ht : t.Whole := hw.thread.slot h.kind t hs
  have hsubject : ∀ k ∈ op.subject?, w.live k = true := by
    intro k hk
    rw [hop] at hk
    cases hk
    exact hlive
  have heff := Op.effect ht.toWellFormed hsubject
  refine ⟨withTable_whole hw h.kind heff.wellFormed, ?_⟩
  rw [reads_withTable heff.wellFormed hlive, reads_present hs ht.toWellFormed hlive]
  exact heff.valueOf? ht.nodup hlive

theorem updated_tryGet (hw : w.Whole) (hlive : w.live h.identity = true) (hslot : w.thread.slot h.kind ≠ .destroyed) :
    ((tryGet h).updated w).world.Whole ∧ ((tryGet h).updated w).world.reads h = w.reads h ∧
      ((tryGet h).updated w).result = w.reads h := by
  cases hs : w.thread.slot h.kind with
  | destroyed => exact absurd hs hslot
  | absent =>
    simp only [updated, hs]
    refine ⟨(World.Quiet.markUse w h.kind).whole_of hw, reads_congr (Thread.slot_markUse _ _ _) rfl rfl, ?_⟩
    simp [World.reads, hs, Slot.table?]
  | present t =>
    obtain ⟨hwhole, hreads⟩ := withTable_spec hw hlive hs (.get h.identity) rfl
    simp only [updated, hs]
    have hfound : (t.get? w.live h.identity).1 = w.reads h := by
      unfold World.reads
      rw [hs]
      rfl
    rw [hfound]
    refine ⟨?_, ?_, rfl⟩
    · cases w.reads h with
      | none => exact hwhole
      | some r => exact (World.Quiet.recount _ r _).whole_of hwhole
    · cases hread : w.reads h with
      | none => exact hreads.trans hread
      | some r => exact hreads.trans hread

theorem updated_set (hw : w.Whole) (hlive : w.live h.identity = true) (hslot : w.thread.slot h.kind ≠ .destroyed)
    (r : Ref) : ((set h r).updated w).world.Whole ∧ ((set h r).updated w).world.reads h = some r := by
  cases hs : w.thread.slot h.kind with
  | destroyed => exact absurd hs hslot
  | absent =>
    simp only [updated, hs]
    obtain ⟨hwf, hent⟩ := Table.wellFormed_singleton h.identity r
    have hwhole := withTable_whole hw h.kind hwf
    refine ⟨⟨hwhole.thread, hwhole.waiting, hwhole.captures⟩, ?_⟩
    · refine (reads_withTable hwf hlive).trans ?_
      have hmem : Entry.of h.identity r ∈ (Table.singleton h.identity r).entries := by
        rw [hent]
        exact List.mem_singleton_self _
      exact Table.valueOf?_eq_some hwf.nodup hmem rfl
  | present t =>
    obtain ⟨hwhole, hreads⟩ := withTable_spec hw hlive hs (.set h.identity r) rfl
    have hread : (w.withTable h.kind (t.insert w.live h.identity r).1).reads h = some r := by
      refine hreads.trans ?_
      simp [Op.write?]
    simp only [updated, hs]
    cases (t.insert w.live h.identity r).2 with
    | none => exact ⟨hwhole, hread⟩
    | some event =>
      exact ⟨(World.Quiet.log _ _).whole_of hwhole, hread⟩

theorem updated_remove (hw : w.Whole) (hlive : w.live h.identity = true) (hslot : w.thread.slot h.kind ≠ .destroyed) :
    ((remove h).updated w).world.Whole ∧ ((remove h).updated w).world.reads h = none := by
  cases hs : w.thread.slot h.kind with
  | destroyed => exact absurd hs hslot
  | absent =>
    simp only [updated, hs]
    refine ⟨(World.Quiet.markUse w h.kind).whole_of hw, ?_⟩
    refine (reads_congr (Thread.slot_markUse w.thread h.kind h.kind) rfl rfl).trans ?_
    simp [World.reads, hs, Slot.table?]
  | present t =>
    obtain ⟨hwhole, hreads⟩ := withTable_spec hw hlive hs (.remove h.identity) rfl
    simp only [updated, hs]
    refine ⟨hwhole, hreads.trans ?_⟩
    simp [Op.write?]

theorem updated_install (hw : w.Whole) {c : Inheritance} (hc : c.Whole) :
    ((install c).updated w).world.Whole ∧
      ∀ t, c.table = some t → ((install c).updated w).world.thread.inheritable = .present t := by
  obtain ⟨_ | t⟩ := c
  · exact ⟨hw, nofun⟩
  · have hmarked : (w.thread.markUse .inheritable).Whole := ⟨hw.thread.plain, hw.thread.inheritable⟩
    refine ⟨⟨hmarked.setSlot (Slot.whole_present (hc t rfl)) .inheritable, hw.waiting, hw.captures⟩, ?_⟩
    rintro _ ⟨⟩
    rfl

/-- The update is complete: all tables are whole, nothing given up is left in them, and the operation's effect is to be
seen. It stays so while references are counted down. -/
theorem updated_spec {call : Call} (hw : w.Whole) (hfit : call.Fit w)
    (hslot : w.thread.slot call.kind ≠ .destroyed) :
    (call.updated w).world.Whole ∧
      ∀ objects, call.Settled w { (call.updated w).world with objects := objects } := by
  cases call with
  | tryGet h =>
    obtain ⟨hwhole, hreads, -⟩ := updated_tryGet hw hfit hslot
    exact ⟨hwhole, fun _ => hreads⟩
  | set h r =>
    obtain ⟨hwhole, hreads⟩ := updated_set hw hfit hslot r
    exact ⟨hwhole, fun _ => hreads⟩
  | remove h =>
    obtain ⟨hwhole, hreads⟩ := updated_remove hw hfit hslot
    exact ⟨hwhole, fun _ => hreads⟩
  | install c =>
    obtain ⟨hwhole, hplace⟩ := updated_install hw hfit
    exact ⟨hwhole, fun _ => hplace⟩

theorem unlinks (u : UserCode) (call : Call) (hslot : w.thread.slot call.kind ≠ .destroyed) :
    Unlinks u (call.run u) w (call.updated w) := by
  cases call with
  | tryGet h => exact unlinks_tryGet u hslot
  | set h r => exact unlinks_set u r hslot
  | remove h => exact unlinks_remove u hslot
  | install c => exact unlinks_install u c hslot

/-- An operation on a table that is not destroyed, whatever the ends of values do: the update comes first and is
complete, then what was given up is let go of in that order, and the result is that of the update. When the first
value ends, nothing has happened since the update but that references were counted down, so the operation's effect is
there to be seen. -/
theorem unlinked_first (u : UserCode) (call : Call) (hw : w.Whole) (hfit : call.Fit w)
    (hslot : w.thread.slot call.kind ≠ .destroyed) :
    (∀ a w', call.run u w = .ok a w' ↔ a = (call.updated w).result ∧
      ∃ starts, Releases u (call.updated w).given (call.updated w).world starts none w') ∧
    (∀ message w', call.run u w = .error (.panic message) w' ↔ ∃ starts q starts',
      Releases u (call.updated w).given (call.updated w).world starts (some message) q ∧
      Releases u (call.updated w).result.toList q starts' none w') ∧
    (∀ h, call = .tryGet h → (call.updated w).result = w.reads h) ∧
    (call.updated w).world.Whole ∧ call.Settled w (call.updated w).world ∧
    ∀ starts m w', Releases u (call.updated w).given (call.updated w).world starts m w' → ∀ s ∈ starts.head?,
      call.Settled w s.2 ∧ ∃ before after, (call.updated w).given = before ++ s.1 :: after ∧
        s.2 = (before ++ [s.1]).foldl World.letGo (call.updated w).world := by
  obtain ⟨hok, hpanic⟩ := unlinks u call hslot
  obtain ⟨hwhole, hsettled⟩ := updated_spec hw hfit hslot
  refine ⟨hok, hpanic, ?_, hwhole, hsettled _, ?_⟩
  · rintro h rfl
    exact (updated_tryGet hw hfit hslot).2.2
  · intro starts m w' hrel s hs
    obtain ⟨before, after, hgiven, hstate⟩ := hrel.first_start hs
    refine ⟨?_, before, after, hgiven, hstate⟩
    rw [hstate, World.foldl_letGo]
    exact hsettled _

/-- A thread with values of two variables of one hash code. The first variable has been let go of, and its value
removes the other's when it ends. -/
def littered : World :=
  { World.start with
    catalog := #[⟨⟨0, 7⟩, .plain, 0, ⟨.blank, none⟩, 1⟩, ⟨⟨1, 7⟩, .plain, 1, ⟨.blank, none⟩, 1⟩]
    handles := ⟨[(1, ⟨.plain, ⟨1, 7⟩⟩)]⟩
    objects := #[⟨.null, [.remove 1], 1⟩, ⟨.null, [], 1⟩]
    thread := { Thread.start with
      plain := .present ((Table.singleton ⟨0, 7⟩ 0).insert (fun _ => true) ⟨1, 7⟩ 1).1 } }

/-- The lookup comes past the first value and lets go of it. The value found is still the result. -/
theorem unlinked_in_littered :
    ∃ w', (tryGet ⟨.plain, ⟨1, 7⟩⟩).run (Script.userCode (Script.performWithin false 1 true)) littered = .ok (some 1) w' ∧
      w'.reads ⟨.plain, ⟨1, 7⟩⟩ = none ∧
      ∃ s starts, Releases (Script.userCode (Script.performWithin false 1 true)) [0]
          ((tryGet ⟨.plain, ⟨1, 7⟩⟩).updated littered).world (s :: starts) none w' ∧
        s.2.reads ⟨.plain, ⟨1, 7⟩⟩ = some 1 := by
  have hwf : ∀ t, littered.thread.plain = .present t → t.Whole := by
    rintro _ ⟨⟩
    exact ⟨(Op.effect_set (Table.wellFormed_singleton ⟨0, 7⟩ 0).1 rfl 1).wellFormed, rfl⟩
  have hwhole : littered.Whole := ⟨⟨hwf, nofun⟩, nofun, nofun⟩
  have hrun : (tryGet ⟨.plain, ⟨1, 7⟩⟩).run (Script.userCode (Script.performWithin false 1 true)) littered = .ok (some 1) _ :=
    rfl
  obtain ⟨hok, -, -, -, -, hfirst⟩ := unlinked_first (Script.userCode (Script.performWithin false 1 true))
    (tryGet ⟨.plain, ⟨1, 7⟩⟩) hwhole rfl nofun
  obtain ⟨-, starts, hrel⟩ := (hok _ _).1 hrun
  refine ⟨_, hrun, rfl, ?_⟩
  cases starts with
  | nil => cases congrArg (World.reads · ⟨.plain, ⟨1, 7⟩⟩) hrel.of_no_start.2
  | cons s starts => exact ⟨s, starts, hrel, (hfirst _ _ _ hrel s rfl).1.trans rfl⟩

end Call

end PerThread
