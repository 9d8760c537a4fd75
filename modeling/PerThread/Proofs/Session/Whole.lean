import PerThread.Inheritance.Capture
import PerThread.Proofs.History.Effect
import PerThread.Proofs.Session.Alike
import PerThread.Thread.Life

/-!
# Whole tables

A table is `Whole` if it is well-formed and has nothing to give up: what it released has been taken out of it.
A state is whole if all tables are that belong to a thread or a capture. Operations run user code, and user code
may differ between two sessions that are compared; `UserCode.Steady` is what is asked of it. Every operation of
the library is then alike in both (`Exec.Alike`), on the states that are whole and in which the same identities
are in use: each brings the tables into their final form before it lets user code run.

An operation on a table needs its identity to be alive. It is, as it is among those in use.
-/

namespace PerThread

open Exec (Alike Anything)

/-- Well-formed, and without values given up. -/
structure Table.Whole {ν : Type} (t : Table ν) : Prop extends t.WellFormed where
  reclaimed_eq : t.reclaimed = []

def Slot.Whole (s : Slot) : Prop := ∀ t, s = .present t → t.Whole

structure Thread.Whole (t : Thread) : Prop where
  plain : t.plain.Whole
  inheritable : t.inheritable.Whole

def Inheritance.Whole (c : Inheritance) : Prop := ∀ t, c.table = some t → t.Whole

structure World.Whole (w : World) : Prop where
  thread : w.thread.Whole
  waiting : ∀ t ∈ w.waiting, t.Whole
  captures : ∀ name c, w.captures.find? name = some c → c.Whole

/-- Whole, while the identities `us` are in use. -/
structure World.Calm (us : List Identity) (w : World) : Prop extends w.Whole where
  inUse_eq : w.inUse = us

/-- User code that does the same, and leaves whole what was whole. -/
structure UserCode.Steady (u v : UserCode) : Prop where
  construct : ∀ us key, Alike (World.Calm us) Anything (u.construct key) (v.construct key)
  derive : ∀ us key parent, Alike (World.Calm us) Anything (u.derive key parent) (v.derive key parent)
  finalize : ∀ us r, Alike (World.Calm us) Anything (u.finalize r) (v.finalize r)

variable {u v : UserCode} {us : List Identity} {w : World} {key : Identity} {kind : Kind} {α : Type}
  {P : α → Prop} {x y : Action α}

/-! ## Whole states -/

theorem Table.Whole.after {t : Table Ref} (h : t.Whole) (op : Op Ref) (hop : op.subject? = some key)
    (hkey : key ∈ us) (live : Liveness) (hlive : ∀ k ∈ us, live k = true) :
    (op.table live t).WellFormed := by
  have hsubject : ∀ k ∈ op.subject?, live k = true := by
    intro k hk
    rw [hop] at hk
    cases hk
    exact hlive key hkey
  exact (Op.effect h.toWellFormed hsubject).wellFormed

theorem Slot.whole_absent : Slot.absent.Whole := nofun

theorem Slot.whole_destroyed : Slot.destroyed.Whole := nofun

theorem Slot.whole_present {t : Table Ref} (h : t.Whole) : (Slot.present t).Whole := by
  rintro _ ⟨⟩
  exact h

namespace Thread

theorem whole_start : Thread.start.Whole := ⟨Slot.whole_absent, Slot.whole_absent⟩

theorem Whole.slot {t : Thread} (h : t.Whole) (kind : Kind) : (t.slot kind).Whole := by
  cases kind with
  | plain => exact h.plain
  | inheritable => exact h.inheritable

theorem Whole.setSlot {t : Thread} (h : t.Whole) {s : Slot} (hs : s.Whole) (kind : Kind) :
    (t.setSlot kind s).Whole := by
  cases kind with
  | plain => exact ⟨hs, h.inheritable⟩
  | inheritable => exact ⟨h.plain, hs⟩

end Thread

namespace World

theorem whole_start : World.start.Whole := ⟨Thread.whole_start, nofun, nofun⟩

theorem Calm.live (h : w.Calm us) (hkey : key ∈ us) : w.live key = true := by
  rw [← h.inUse_eq] at hkey
  simp [World.live, hkey]

/-- What is no table, and no identity in use, does not matter. -/
theorem Calm.frame {w' : World} (h : w.Calm us) (hplain : w'.thread.plain = w.thread.plain)
    (hinheritable : w'.thread.inheritable = w.thread.inheritable) (hwaiting : w'.waiting = w.waiting)
    (hcaptures : w'.captures = w.captures) (huse : w'.inUse = w.inUse) : w'.Calm us where
  thread := ⟨hplain ▸ h.thread.plain, hinheritable ▸ h.thread.inheritable⟩
  waiting := hwaiting ▸ h.waiting
  captures := hcaptures ▸ h.captures
  inUse_eq := huse.trans h.inUse_eq

theorem Calm.erase_capture (h : w.Calm us) (name : String) :
    { w with captures := w.captures.erase name }.Calm us := by
  refine ⟨⟨h.thread, h.waiting, fun other c hc => ?_⟩, h.inUse_eq⟩
  by_cases hne : other = name
  · subst hne
    simp [Registry.find?_erase_self] at hc
  · rw [Registry.find?_erase_of_ne _ hne] at hc
    exact h.captures other c hc

theorem Calm.set_capture (h : w.Calm us) (name : String) {c : Inheritance} (hc : c.Whole) :
    { w with captures := w.captures.set name c }.Calm us := by
  refine ⟨⟨h.thread, h.waiting, fun other c' hc' => ?_⟩, h.inUse_eq⟩
  by_cases hne : other = name
  · subst hne
    rw [Registry.find?_set_self] at hc'
    cases hc'
    exact hc
  · rw [Registry.find?_set_of_ne _ hne] at hc'
    exact h.captures other c' hc'

end World

/-! ## Elementary actions -/

namespace Action

theorem steady_report (e : LogEntry Reply) : Alike (World.Calm us) Anything (report e) (report e) :=
  .update fun _ h => h.frame rfl rfl rfl rfl rfl

theorem steady_retain (r : Ref) : Alike (World.Calm us) Anything (retain r) (retain r) :=
  .update fun _ h => h.frame rfl rfl rfl rfl rfl

theorem steady_newObject (value : Datum) (onDestroy : List Step) :
    Alike (World.Calm us) Anything (newObject value onDestroy) (newObject value onDestroy) := by
  refine Alike.read.bind fun w hw => ?_
  refine Alike.returning (.write ?_)
  exact hw.frame rfl rfl rfl rfl rfl

theorem steady_view (r : Ref) : Alike (World.Calm us) Anything (view r) (view r) :=
  Alike.read.returning

theorem steady_release (hu : u.Steady v) (r : Ref) :
    Alike (World.Calm us) Anything (release u r) (release v r) := by
  refine (Alike.update fun _ h => h.frame rfl rfl rfl rfl rfl).andThen ?_
  refine Alike.read.bind fun w _ => ?_
  by_cases hzero : (w.object r).refs = 0
  · rw [if_pos hzero, if_pos hzero]
    exact hu.finalize us r
  · rw [if_neg hzero, if_neg hzero]
    exact .pure trivial

theorem steady_releaseAll (hu : u.Steady v) (rs : List Ref) :
    Alike (World.Calm us) Anything (releaseAll u rs) (releaseAll v rs) := by
  induction rs with
  | nil => exact .pure trivial
  | cons r rest ih => exact (steady_release hu r).ensuring ih

theorem steady_slot (kind : Kind) : Alike (World.Calm us) Slot.Whole (slot kind) (slot kind) := by
  refine (Alike.update fun _ h => h.frame rfl rfl rfl rfl rfl).andThen ?_
  refine Alike.read.bind fun w hw => ?_
  exact .pure (hw.thread.slot kind)

theorem steady_setSlot (kind : Kind) {s : Slot} (hs : s.Whole) :
    Alike (World.Calm us) Anything (setSlot kind s) (setSlot kind s) :=
  .update fun _ h => ⟨⟨h.thread.setSlot hs kind, h.waiting, h.captures⟩, h.inUse_eq⟩

theorem steady_geometry (kind : Kind) : Alike (World.Calm us) Anything (geometry kind) (geometry kind) :=
  (steady_slot kind).returning

/-- The table is whole again when the values it gave up have been taken. -/
theorem steady_updateTable {β : Type} {t : Table Ref} {op : Table Ref → Liveness → β × Table Ref}
    (hop : ∀ live : Liveness, (∀ key ∈ us, live key = true) → (op t live).2.WellFormed) (kind : Kind) :
    Alike (World.Calm us) Anything (updateTable kind t op) (updateTable kind t op) := by
  refine Alike.read.bind fun w hw => ?_
  have hwf := hop w.live fun key hkey => hw.live hkey
  exact (steady_setSlot kind (Slot.whole_present ⟨hwf.copy, rfl⟩)).returning

theorem steady_holding (h : Alike (World.Calm (key :: us)) P x y) :
    Alike (World.Calm us) P (holding key x) (holding key y) := by
  intro w hw
  have hpush : { w with inUse := key :: w.inUse }.Calm (key :: us) :=
    ⟨⟨hw.thread, hw.waiting, hw.captures⟩, congrArg (key :: ·) hw.inUse_eq⟩
  have hpop (w' : World) (hw' : w'.Calm (key :: us)) : { w' with inUse := w'.inUse.erase key }.Calm us := by
    refine ⟨⟨hw'.thread, hw'.waiting, hw'.captures⟩, ?_⟩
    rw [hw'.inUse_eq, List.erase_cons_head]
  obtain ⟨heq, ho⟩ := h _ hpush
  rw [holding_run, holding_run, heq]
  revert ho
  rcases x { w with inUse := key :: w.inUse } with ⟨a, w'⟩ | ⟨message | _, w'⟩
  · exact fun ho => ⟨rfl, ho.1, hpop w' ho.2⟩
  · exact fun ho => ⟨rfl, hpop w' ho⟩
  · exact fun _ => ⟨rfl, trivial⟩

end Action

/-! ## Stores and handles -/

namespace Store

theorem steady_lookup (hu : u.Steady v) (kind : Kind) (hkey : key ∈ us) :
    Alike (World.Calm us) Anything (lookup u kind key) (lookup v kind key) := by
  refine (Action.steady_slot kind).bind ?_
  rintro (_ | t | _) ht
  · exact .pure trivial
  · have hop := (ht t rfl).after (.get key) rfl hkey
    refine (Action.steady_updateTable hop kind).bind ?_
    rintro ⟨found, given⟩ -
    refine (Alike.option_forM found fun r _ => Action.steady_retain r).andThen ?_
    refine Alike.bind (Alike.onPanic (Action.steady_releaseAll hu given) ?_) fun _ _ => .pure trivial
    exact Alike.option_forM found fun r _ => Action.steady_release hu r
  · exact .pure trivial

theorem steady_store (hu : u.Steady v) (kind : Kind) (hkey : key ∈ us) (r : Ref) :
    Alike (World.Calm us) Anything (store u kind key r) (store v kind key r) := by
  refine (Action.steady_slot kind).bind ?_
  rintro (_ | t | _) ht
  · refine (Action.steady_report _).andThen ?_
    exact Action.steady_setSlot kind (Slot.whole_present ⟨(Table.wellFormed_singleton key r).1, rfl⟩)
  · have hop := (ht t rfl).after (.set key r) rfl hkey
    refine (Action.steady_updateTable hop kind).bind ?_
    rintro ⟨event, given⟩ -
    refine (Alike.option_forM event fun e _ => Action.steady_report _).andThen ?_
    exact Action.steady_releaseAll hu given
  · exact (Action.steady_release hu r).andThen (Action.steady_report _)

theorem steady_erase (hu : u.Steady v) (kind : Kind) (hkey : key ∈ us) :
    Alike (World.Calm us) Anything (erase u kind key) (erase v kind key) := by
  refine (Action.steady_slot kind).bind ?_
  rintro (_ | t | _) ht
  · exact .pure trivial
  · have hop := (ht t rfl).after (.remove key) rfl hkey
    refine (Action.steady_updateTable hop kind).bind ?_
    rintro ⟨_, given⟩ -
    exact Action.steady_releaseAll hu given
  · exact .pure trivial

end Store

namespace Handle

theorem steady_get (hu : u.Steady v) (h : Handle) (hkey : h.identity ∈ us) :
    Alike (World.Calm us) Anything (h.get u) (h.get v) := by
  refine (Store.steady_lookup hu h.kind hkey).bind ?_
  rintro (_ | r) -
  · refine (hu.construct us h.identity).bind fun r _ => ?_
    refine (Action.steady_retain r).andThen ?_
    have hstore := Store.steady_store hu h.kind hkey r
    exact (hstore.onPanic (Action.steady_release hu r)).returning
  · exact .pure trivial

theorem steady_childRule (h : Handle) : Alike (World.Calm us) Anything h.childRule h.childRule :=
  Alike.read.returning

theorem steady_childValue (hu : u.Steady v) (h : Handle) (parent : Ref) :
    Alike (World.Calm us) Anything (h.childValue u parent) (h.childValue v parent) := by
  refine h.steady_childRule.bind ?_
  rintro (_ | _ | _) -
  · exact .pure trivial
  · exact (Action.steady_retain parent).returning
  · exact (hu.derive us h.identity parent).returning

theorem steady_text (h : Handle) : Alike (World.Calm us) Anything h.text h.text :=
  Alike.read.returning

end Handle

/-! ## Captures -/

namespace Inheritance

theorem steady_childValue (hu : u.Steady v) (child : Table Ref) (e : Entry Ref) :
    Alike (World.Calm us) Anything (childValue u child e) (childValue v child e) := by
  refine Alike.onPanic ?_ (Action.steady_releaseAll hu child.values)
  exact Action.steady_holding (Handle.steady_childValue hu _ e.value)

/-- Whatever the derivations do, the child's table gets some of the parent's identities. -/
theorem steady_inheritAll (hu : u.Steady v) (child : Table Ref) (es : List (Entry Ref))
    (hhash : ∀ e ∈ es, e.hash = e.key.hash) :
    Alike (World.Calm us) (fun c => ∃ hs, c = child.endow hs ∧
        (hs.map Entry.key).Sublist (es.map Entry.key) ∧ ∀ e ∈ hs, e.hash = e.key.hash)
      (child.inheritAll (fun key => return (← get).live key) (childValue u) es)
      (child.inheritAll (fun key => return (← get).live key) (childValue v) es) := by
  induction es generalizing child with
  | nil => exact .pure ⟨[], rfl, List.Sublist.refl _, nofun⟩
  | cons e rest ih =>
    obtain ⟨hhash_e, hhash_rest⟩ := List.forall_mem_cons.1 hhash
    have hlive : Alike (World.Calm us) Anything (return (← get).live e.key) (return (← get).live e.key) :=
      Alike.read.bind fun w _ => .pure trivial
    refine hlive.bind fun b _ => ?_
    cases b with
    | false =>
      refine (ih child hhash_rest).mono ?_
      rintro c ⟨hs, rfl, hsub, hhs⟩
      exact ⟨hs, rfl, hsub.cons _, hhs⟩
    | true =>
      refine (steady_childValue hu child e).bind ?_
      rintro (_ | value) -
      · refine (ih child hhash_rest).mono ?_
        rintro c ⟨hs, rfl, hsub, hhs⟩
        exact ⟨hs, rfl, hsub.cons _, hhs⟩
      · refine (ih (child.inherit e value) hhash_rest).mono ?_
        rintro c ⟨hs, rfl, hsub, hhs⟩
        refine ⟨{ e with value } :: hs, Table.endow_cons child e value hs, hsub.cons_cons e.key, ?_⟩
        exact List.forall_mem_cons.2 ⟨hhash_e, hhs⟩

theorem steady_capture (hu : u.Steady v) : Alike (World.Calm us) Whole (capture u) (capture v) := by
  refine (Action.steady_slot .inheritable).bind fun s hs => ?_
  cases ht : s.table? with
  | none => exact .pure nofun
  | some t =>
    have hwhole : t.Whole := by
      cases s with
      | present t' =>
        cases ht
        exact hs _ rfl
      | _ => cases ht
    have hwf : t.copy.WellFormed := hwhole.copy
    refine (Alike.forM t.copy.values fun r _ => Action.steady_retain r).andThen ?_
    refine Alike.bind (Alike.onPanic (steady_inheritAll hu _ t.copy.entries hwf.hash_eq)
      (Action.steady_releaseAll hu t.copy.values)) ?_
    rintro _ ⟨hs, rfl, hsub, hhash⟩
    refine (Action.steady_report _).andThen ?_
    refine (Action.steady_releaseAll hu t.copy.values).andThen ?_
    refine .pure ?_
    rintro _ ⟨⟩
    exact ⟨(hwf.endow hsub hhash).1, rfl⟩

theorem steady_discard (hu : u.Steady v) (c : Inheritance) :
    Alike (World.Calm us) Anything (c.discard u) (c.discard v) :=
  Action.steady_releaseAll hu c.values

theorem steady_install (hu : u.Steady v) {c : Inheritance} (hc : c.Whole) :
    Alike (World.Calm us) Anything (c.install u) (c.install v) := by
  obtain ⟨_ | t⟩ := c
  · exact .pure trivial
  · have ht : (Slot.present t).Whole := Slot.whole_present (hc t rfl)
    refine (Action.steady_slot .inheritable).bind ?_
    rintro (_ | previous | _) -
    · exact Action.steady_setSlot .inheritable ht
    · refine (Action.steady_setSlot .inheritable ht).andThen ?_
      exact Action.steady_releaseAll hu previous.values
    · exact Action.steady_releaseAll hu t.values

end Inheritance

/-! ## Threads -/

namespace Thread

theorem steady_destroy (hu : u.Steady v) (kind : Kind) :
    Alike (World.Calm us) Anything (destroy u kind) (destroy v kind) := by
  refine (Action.steady_slot kind).bind fun s _ => ?_
  refine (Action.steady_setSlot kind Slot.whole_destroyed).andThen ?_
  exact (Action.steady_releaseAll hu s.values).noPanic

theorem steady_run (h : Alike (World.Calm us) P x y) : Alike (World.Calm us) P (run x) (run y) := by
  refine (Alike.update fun w hw => ?_).andThen ?_
  · refine ⟨⟨whole_start, ?_, hw.captures⟩, hw.inUse_eq⟩
    exact List.forall_mem_cons.2 ⟨hw.thread, hw.waiting⟩
  · refine h.bind fun a ha => ?_
    refine (Alike.update fun w hw => ?_).andThen (.pure ha)
    cases hwaiting : w.waiting with
    | nil => exact hw
    | cons t rest =>
      have hall := hw.waiting
      rw [hwaiting] at hall
      obtain ⟨ht, hrest⟩ := List.forall_mem_cons.1 hall
      exact ⟨⟨ht, hrest, hw.captures⟩, hw.inUse_eq⟩

end Thread

end PerThread
