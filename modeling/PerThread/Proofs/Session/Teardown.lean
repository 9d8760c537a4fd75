import PerThread.Proofs.Session.Performing
import PerThread.Proofs.Session.Releases

/-!
# The end of a thread's tables

From the moment the destruction of a table begins its place is destroyed, and nothing brings a table back: neither
the ends of the values it held, nor the user code that they run, at any depth and on any thread, nor the destruction
of the thread's other table. All elementary changes of a session leave a destroyed place destroyed, as long as the
thread is there (`World.Bereft`). So every operation of that kind that is performed on that thread finds it
destroyed, and `Degraded` says what each of them does then.
-/

namespace PerThread

open World (Since Course Change)
open Action (Proceeds Fresh)

variable {n : Nat} {w w' q : World} {u : UserCode} {kind : Kind} {ts : List Thread} {r : Ref} {h : Handle}

/-! ## A destroyed place stays destroyed -/

/-- The thread that was started when only `ts` were there has lost its table of a kind. It may be waiting. -/
def World.Bereft (kind : Kind) (ts : List Thread) (w : World) : Prop :=
  ∃ started t, w.thread :: w.waiting = started ++ t :: ts ∧ t.slot kind = .destroyed

namespace World

theorem bereft_running (h : w.thread.slot kind = .destroyed) : w.Bereft kind w.waiting := among_running h

/-- If no more threads wait than there were before, then the thread is running. -/
theorem Bereft.running (h : w.Bereft kind w.waiting) : w.thread.slot kind = .destroyed := Among.running h

theorem Course.bereft (hc : Course (ts.length + 1) w w') (h : w.Bereft kind ts) : w'.Bereft kind ts :=
  hc.among (lasting_destroyed kind) h

/-- While the thread does not end, its place stays destroyed. -/
theorem Since.destroyed (hs : w.Since (w.waiting.length + 1) w') (h : w.thread.slot kind = .destroyed) :
    w'.thread.slot kind = .destroyed := hs.lasting (lasting_destroyed kind) h

end World

/-! ## The destruction of a table -/

namespace Thread

/-- The state in which the destruction of a table begins. -/
def torn (kind : Kind) (w : World) : World := { w with thread := (w.thread.markUse kind).setSlot kind .destroyed }

theorem destroy_run (u : UserCode) (kind : Kind) (w : World) :
    destroy u kind w = Exec.noPanic (Action.releaseAll u (w.thread.slot kind).values) (torn kind w) := by
  unfold destroy
  simp only [bind, EStateM.bind, Action.slot_run]
  rfl

/-- The place is destroyed first. Then the values are let go of, once each and in slot order. -/
theorem destroy_ok_iff (u : UserCode) (kind : Kind) (w w' : World) :
    destroy u kind w = .ok () w' ↔
      ∃ starts, Releases u (w.thread.slot kind).values (torn kind w) starts none w' := by
  rw [destroy_run, Exec.noPanic_ok_iff]
  exact Action.releaseAll_eq_iff (m := none)

/-- No panic gets out of the destruction of a table. -/
theorem destroy_error {i : Interrupt} (hrun : destroy u kind w = .error i w') : i = .abort := by
  rw [destroy_run] at hrun
  cases i with
  | panic message => exact absurd hrun (Exec.NeverPanics.noPanic _ _ message w')
  | abort => rfl

theorem good_torn (hw : w.Good) (kind : Kind) : (torn kind w).Good := by
  exact (hw.of_quiet (.markUse w kind)).setSlot kind Slot.whole_destroyed nofun

/-- A place that is destroyed when the destruction of a table begins, or as it begins, is destroyed at every end. -/
theorem bereft_of_destroy {first : Kind} (hu : u.Tame (w.waiting.length + 1)) (hw : w.Good)
    (hslot : first = kind ∨ w.thread.slot kind = .destroyed) (hend : Exec.Ends (destroy u first) w q) :
    q.Good ∧ q.Bereft kind w.waiting := by
  have htorn : (torn first w).thread.slot kind = .destroyed := by
    by_cases hk : kind = first
    · rw [hk]
      exact slot_setSlot_self _ _ _
    · rw [torn, slot_setSlot_of_ne _ hk, slot_markUse]
      exact hslot.resolve_left fun heq => hk heq.symm
  have hreleases : Proceeds (w.waiting.length + 1) (Exec.noPanic (Action.releaseAll u (w.thread.slot first).values))
      (torn first w) fun _ _ => True := (Action.tame_releaseAll hu _ _).noPanic
  have hend' : Exec.Ends (Exec.noPanic (Action.releaseAll u (w.thread.slot first).values)) (torn first w) q := by
    unfold Exec.Ends at hend ⊢
    simp only [destroy_run] at hend
    exact hend
  have hcourse := hreleases.course (good_torn hw first) (Nat.le_refl _) hend'
  exact ⟨hcourse.good (good_torn hw first), hcourse.bereft (World.bereft_running htorn)⟩

end Thread

/-! ## Operations that come too late -/

namespace World

def marked (kind : Kind) (w : World) : World := { w with thread := w.thread.markUse kind }

def noting (e : Event) (w : World) : World := { w with log := w.log.push (.event e) }

theorem quiet_marked (kind : Kind) (w : World) : w.Quiet (w.marked kind) := .markUse w kind

theorem quiet_noting (e : Event) (w : World) : w.Quiet (w.noting e) := .log w _

/-- A reference added and let go of again. -/
theorem letGo_retained (w : World) (r : Ref) : (w.recount r (· + 1)).letGo r = w := by
  have hobjects : (w.objects.modify r fun o => { o with refs := o.refs + 1 }).modify r
      (fun o => { o with refs := o.refs - 1 }) = w.objects := by
    refine Array.ext (by simp) fun i h₁ h₂ => ?_
    simp only [Array.getElem_modify]
    split <;> simp
  unfold letGo recount
  simp only [hobjects]

end World

/-- What the operations of a kind do on the running thread, whose place of that kind is destroyed: they find no value
and keep none. -/
structure Degraded (u : UserCode) (kind : Kind) (w : World) : Prop where
  tryGet : ∀ h : Handle, h.kind = kind → h.tryGet u w = .ok none (w.marked kind)
  /-- The initializer is called anew, and makes the result. -/
  get_ok : ∀ h : Handle, h.kind = kind → ∀ r w', h.get u w = .ok r w' ↔
    ∃ q, u.construct h.identity (w.marked kind) = .ok r q ∧ w' = (q.marked kind).noting .storageDestroyed
  get_error : ∀ h : Handle, h.kind = kind → ∀ i w', h.get u w = .error i w' ↔
    u.construct h.identity (w.marked kind) = .error i w'
  /-- The only reference to the result is the caller's, and no table has it. -/
  get_unowned : ∀ h : Handle, h.kind = kind → ∀ r w', h.get u w = .ok r w' →
    (w'.object r).refs = 1 ∧ ¬ w'.Owns r ∧ w'.thread.slot kind = .destroyed
  /-- The value is let go of, and only then its fate is reported. -/
  set_ok : ∀ h : Handle, h.kind = kind → ∀ r w', h.set u r w = .ok () w' ↔
    ∃ starts q, Releases u [r] (w.marked kind) starts none q ∧ w' = q.noting .storageDestroyed
  set_panic : ∀ h : Handle, h.kind = kind → ∀ r message w', h.set u r w = .error (.panic message) w' ↔
    ∃ starts, Releases u [r] (w.marked kind) starts (some message) w'
  remove : ∀ h : Handle, h.kind = kind → h.remove u w = .ok () (w.marked kind)
  capture : kind = .inheritable → Inheritance.capture u w = .ok .nothing (w.marked kind)
  install : kind = .inheritable → ∀ t m w', Inheritance.install u ⟨some t⟩ w = Exec.ending m w' ↔
    ∃ starts, Releases u t.values (w.marked kind) starts m w'
  geometry : Action.geometry kind w = .ok none (w.marked kind)

namespace Degraded

variable {key : Identity}

theorem lookup_run (hslot : w.thread.slot kind = .destroyed) :
    Store.lookup u kind key w = .ok none (w.marked kind) := by
  unfold Store.lookup
  simp only [bind, EStateM.bind, Action.slot_run, hslot]
  rfl

theorem store_run (hslot : w.thread.slot kind = .destroyed) (r : Ref) :
    Store.store u kind key r w =
      (do Action.release u r; Action.report (.event .storageDestroyed) : Action Unit) (w.marked kind) := by
  unfold Store.store
  simp only [bind, EStateM.bind, Action.slot_run, hslot]
  rfl

theorem erase_run (hslot : w.thread.slot kind = .destroyed) : Store.erase u kind key w = .ok () (w.marked kind) := by
  unfold Store.erase
  simp only [bind, EStateM.bind, Action.slot_run, hslot]
  rfl

theorem geometry_run (hslot : w.thread.slot kind = .destroyed) : Action.geometry kind w = .ok none (w.marked kind) := by
  unfold Action.geometry
  simp only [bind, EStateM.bind, Action.slot_run, hslot]
  rfl

theorem capture_run (hslot : w.thread.slot .inheritable = .destroyed) :
    Inheritance.capture u w = .ok .nothing (w.marked .inheritable) := by
  unfold Inheritance.capture
  simp only [bind, EStateM.bind, Action.slot_run, hslot]
  rfl

theorem install_run (hslot : w.thread.slot .inheritable = .destroyed) (t : Table Ref) :
    Inheritance.install u ⟨some t⟩ w = Action.releaseAll u t.values (w.marked .inheritable) := by
  unfold Inheritance.install
  simp only [bind, EStateM.bind, Action.slot_run, hslot]
  rfl

theorem get_run (hslot : w.thread.slot h.kind = .destroyed) :
    h.get u w = (do
      let r ← u.construct h.identity
      Action.retain r
      Exec.onPanic (Store.store u h.kind h.identity r) (Action.release u r)
      return r : Action Ref) (w.marked h.kind) := by
  unfold Handle.get
  exact Exec.bind_of_ok (lookup_run hslot)

/-- A value that cannot be stored is let go of. The caller's reference keeps it. -/
theorem keep_run (hslot : q.thread.slot kind = .destroyed) (hrefs : (q.object r).refs = 1) :
    (do
      Action.retain r
      Exec.onPanic (Store.store u kind key r) (Action.release u r)
      return r : Action Ref) q = .ok r ((q.marked kind).noting .storageDestroyed) := by
  have hback : ((q.recount r (· + 1)).marked kind).letGo r = q.marked kind :=
    congrArg (World.marked kind) (q.letGo_retained r)
  have howned : ((q.marked kind).object r).refs ≠ 0 := by
    show (q.object r).refs ≠ 0
    omega
  have hrelease : Action.release u r ((q.recount r (· + 1)).marked kind) = .ok () (q.marked kind) := by
    rw [Action.release_run, hback, if_neg howned]
  have hslot' : (q.recount r (· + 1)).thread.slot kind = .destroyed := hslot
  have hstore : Store.store u kind key r (q.recount r (· + 1)) = .ok () ((q.marked kind).noting .storageDestroyed) := by
    rw [store_run hslot']
    exact Exec.bind_of_ok hrelease
  have hguarded := Exec.onPanic_run (Store.store u kind key r) (Action.release u r) (q.recount r (· + 1))
  rw [hstore] at hguarded
  exact Exec.bind_of_ok hguarded

/-- The initializer leaves the place destroyed, and makes a value that nobody else has. -/
theorem construct_ok (hu : u.Tame (w.waiting.length + 1)) (hw : w.Good) (hslot : w.thread.slot kind = .destroyed)
    (hrun : u.construct key (w.marked kind) = .ok r q) : Fresh r q ∧ q.thread.slot kind = .destroyed := by
  have ho := (hu.construct key (w.marked kind)).ok (hw.of_quiet (w.quiet_marked kind)) (Nat.le_refl _) hrun
  have hs : World.Since ((w.marked kind).waiting.length + 1) (w.marked kind) q := ho.1
  exact ⟨ho.2, hs.destroyed ((Thread.slot_markUse _ _ _).trans hslot)⟩

theorem get_of_ok (hu : u.Tame (w.waiting.length + 1)) (hw : w.Good) (hslot : w.thread.slot h.kind = .destroyed)
    (hrun : u.construct h.identity (w.marked h.kind) = .ok r q) :
    h.get u w = .ok r ((q.marked h.kind).noting .storageDestroyed) := by
  obtain ⟨hfresh, hslot'⟩ := construct_ok hu hw hslot hrun
  rw [get_run hslot, Exec.bind_of_ok hrun]
  exact keep_run hslot' hfresh.refs_eq

theorem get_of_error {i : Interrupt} (hslot : w.thread.slot h.kind = .destroyed)
    (hrun : u.construct h.identity (w.marked h.kind) = .error i q) : h.get u w = .error i q := by
  rw [get_run hslot, Exec.bind_of_error hrun]

theorem get_ok_iff (hu : u.Tame (w.waiting.length + 1)) (hw : w.Good) (hslot : w.thread.slot h.kind = .destroyed) :
    h.get u w = .ok r w' ↔ ∃ q, u.construct h.identity (w.marked h.kind) = .ok r q ∧
      w' = (q.marked h.kind).noting .storageDestroyed := by
  constructor
  · intro hget
    rcases hrun : u.construct h.identity (w.marked h.kind) with ⟨r₁, q⟩ | ⟨i, q⟩
    · rw [get_of_ok hu hw hslot hrun] at hget
      cases hget
      exact ⟨q, rfl, rfl⟩
    · rw [get_of_error hslot hrun] at hget
      cases hget
  · rintro ⟨q, hrun, rfl⟩
    exact get_of_ok hu hw hslot hrun

theorem get_error_iff {i : Interrupt} (hu : u.Tame (w.waiting.length + 1)) (hw : w.Good)
    (hslot : w.thread.slot h.kind = .destroyed) :
    h.get u w = .error i w' ↔ u.construct h.identity (w.marked h.kind) = .error i w' := by
  constructor
  · intro hget
    rcases hrun : u.construct h.identity (w.marked h.kind) with ⟨r₁, q⟩ | ⟨j, q⟩
    · rw [get_of_ok hu hw hslot hrun] at hget
      cases hget
    · rw [get_of_error hslot hrun] at hget
      exact hget
  · exact get_of_error hslot

theorem set_run (hslot : w.thread.slot h.kind = .destroyed) (r : Ref) :
    h.set u r w = (do Action.release u r; Action.report (.event .storageDestroyed) : Action Unit) (w.marked h.kind) :=
  store_run hslot r

theorem set_ok_iff (hslot : w.thread.slot h.kind = .destroyed) (r : Ref) (w' : World) :
    h.set u r w = .ok () w' ↔ ∃ starts q, Releases u [r] (w.marked h.kind) starts none q ∧
      w' = q.noting .storageDestroyed := by
  rw [set_run hslot]
  constructor
  · intro hset
    obtain ⟨_, q, hrelease, hreport⟩ := Exec.bind_ok hset
    obtain ⟨starts, hrel⟩ := (Action.release_eq_iff (m := none)).1 hrelease
    cases hreport
    exact ⟨starts, q, hrel, rfl⟩
  · rintro ⟨starts, q, hrel, rfl⟩
    exact Exec.bind_of_ok ((Action.release_eq_iff (m := none)).2 ⟨starts, hrel⟩)

theorem set_panic_iff (hslot : w.thread.slot h.kind = .destroyed) (r : Ref) (message : String) (w' : World) :
    h.set u r w = .error (.panic message) w' ↔
      ∃ starts, Releases u [r] (w.marked h.kind) starts (some message) w' := by
  refine Iff.trans ?_ (Action.release_eq_iff (m := some message))
  rw [set_run hslot]
  show EStateM.bind (Action.release u r) _ _ = _ ↔ Action.release u r _ = .error (.panic message) w'
  unfold EStateM.bind
  rcases Action.release u r (w.marked h.kind) with ⟨_, q⟩ | ⟨i, q⟩
  · exact ⟨nofun, nofun⟩
  · constructor
    · rintro ⟨⟩
      rfl
    · rintro ⟨⟩
      rfl

/-- What an operation of that kind does, with user code that keeps to the operations of the library. -/
theorem of_destroyed (hu : u.Tame (w.waiting.length + 1)) (hw : w.Good) (hslot : w.thread.slot kind = .destroyed) :
    Degraded u kind w where
  tryGet := by
    rintro h rfl
    exact lookup_run hslot
  get_ok := by
    rintro h rfl r w'
    exact get_ok_iff hu hw hslot
  get_error := by
    rintro h rfl i w'
    exact get_error_iff hu hw hslot
  get_unowned := by
    rintro h rfl r w' hget
    obtain ⟨q, hrun, rfl⟩ := (get_ok_iff hu hw hslot).1 hget
    obtain ⟨hfresh, hslot'⟩ := construct_ok hu hw hslot hrun
    refine ⟨hfresh.refs_eq, ?_, (Thread.slot_markUse _ _ _).trans hslot'⟩
    intro howns
    have hmarked : (q.marked h.kind).Owns r := (World.quiet_noting .storageDestroyed _).owns howns
    exact hfresh.unowned ((q.quiet_marked h.kind).owns hmarked)
  set_ok := by
    rintro h rfl r w'
    exact set_ok_iff hslot r w'
  set_panic := by
    rintro h rfl r message w'
    exact set_panic_iff hslot r message w'
  remove := by
    rintro h rfl
    exact erase_run hslot
  capture := by
    rintro rfl
    exact capture_run hslot
  install := by
    rintro rfl t m w'
    rw [install_run hslot]
    exact Action.releaseAll_eq_iff
  geometry := geometry_run hslot

end Degraded

/-- The destruction of a thread's table, whatever user code keeps to the operations of the library. The place is
destroyed before anything else, and the values are let go of once each, in slot order. It is destroyed at every moment
from then on, also while the other table is destroyed, whatever threads user code has started meanwhile. And an
operation of that kind on that thread, whenever it is performed, finds no value and keeps none. -/
theorem Thread.gone_for_good (hu : u.Tame (w.waiting.length + 1)) (hw : w.Good) (kind : Kind) :
    (∀ w', Thread.destroy u kind w = .ok () w' ↔
      ∃ starts, Releases u (w.thread.slot kind).values (Thread.torn kind w) starts none w') ∧
    (∀ i w', Thread.destroy u kind w = .error i w' → i = .abort) ∧
    (Thread.torn kind w).thread.slot kind = .destroyed ∧
    (∀ first q, first = kind ∨ w.thread.slot kind = .destroyed → Exec.Ends (Thread.destroy u first) w q →
      q.Good ∧ q.Bereft kind w.waiting) ∧
    ∀ (v : UserCode) q, v.Tame (q.waiting.length + 1) → q.Good → q.thread.slot kind = .destroyed → Degraded v kind q :=
  ⟨Thread.destroy_ok_iff u kind w, fun _ _ => Thread.destroy_error, Thread.slot_setSlot_self _ _ _,
    fun _ _ hfirst hend => Thread.bereft_of_destroy hu hw hfirst hend,
    fun _ _ hv hq hslot => Degraded.of_destroyed hv hq hslot⟩

/-- The destruction of a thread's table in a session, with user code at any depth. -/
theorem Script.destroy_for_good {observed : Bool} {sought : World → Bool} {depth : Nat} (hw : w.Good) (kind : Kind) :
    (∀ w', Thread.destroy (watchedCode observed sought depth) kind w = .ok () w' ↔ ∃ starts,
      Releases (watchedCode observed sought depth) (w.thread.slot kind).values (Thread.torn kind w) starts none w') ∧
    (∀ i w', Thread.destroy (watchedCode observed sought depth) kind w = .error i w' → i = .abort) ∧
    (Thread.torn kind w).thread.slot kind = .destroyed ∧
    (∀ first q, first = kind ∨ w.thread.slot kind = .destroyed →
      Exec.Ends (Thread.destroy (watchedCode observed sought depth) first) w q → q.Good ∧ q.Bereft kind w.waiting) ∧
    ∀ depth' q, q.Good → q.thread.slot kind = .destroyed → Degraded (watchedCode observed sought depth') kind q := by
  obtain ⟨hok, herror, htorn, hbereft, hdegraded⟩ :=
    Thread.gone_for_good (tame_watchedCode observed sought depth) hw kind
  exact ⟨hok, herror, htorn, hbereft, fun depth' q => hdegraded _ q (tame_watchedCode observed sought depth')⟩

/-- A thread that ends, with a value that at its own end gives its variable a new value, whose end in turn asks for
the variable's value. -/
def World.bereaved : World :=
  { World.start with
    catalog := #[⟨⟨0, 7⟩, .plain, 0, ⟨.blank, none⟩, 1⟩]
    handles := ⟨[(0, ⟨.plain, ⟨0, 7⟩⟩)]⟩
    objects := #[⟨.null, [.set 0 .null [.get 0]], 1⟩]
    thread := { Thread.start with plain := .present (Table.singleton ⟨0, 7⟩ 0) } }

/-- The new value ends at once, before its fate is reported, and so does the one that its end has asked for. -/
theorem Script.destroy_of_bereaved :
    ∃ w' starts, Thread.destroy (watchedCode false (fun _ => false) 2) .plain World.bereaved = .ok () w' ∧
      Releases (watchedCode false (fun _ => false) 2) [0] (Thread.torn .plain World.bereaved) starts none w' ∧
      w'.log.toList = [.destroyed 0 .null, .destroyed 1 .null, .event .storageDestroyed, .destroyed 2 .null,
        .did (.shown ⟨2, .null, 1⟩), .event .storageDestroyed, .did .done] ∧
      w'.Bereft .plain [] ∧ Degraded (watchedCode false (fun _ => false) 0) .plain w' := by
  obtain ⟨hwf, hent⟩ := Table.wellFormed_singleton ⟨0, 7⟩ (0 : Ref)
  have hplain : ∀ t, World.bereaved.thread.plain = .present t → t.Whole := by
    rintro _ ⟨⟩
    exact ⟨hwf, rfl⟩
  have hbounded : ∀ r, World.bereaved.Owns r → r < World.bereaved.objects.size := by
    intro r howns
    cases howns with
    | running kind h =>
      cases kind with
      | plain =>
        have hr : r ∈ [0] := h
        rw [List.mem_singleton.1 hr]
        decide
      | inheritable => cases h
    | waiting t ht => cases ht
    | captured name c hc => cases hc
  have hgood : World.bereaved.Good := ⟨⟨⟨hplain, nofun⟩, nofun, nofun⟩, hbounded⟩
  have hrun : Thread.destroy (watchedCode false (fun _ => false) 2) .plain World.bereaved = .ok () _ := rfl
  obtain ⟨hok, -, -, hbereft, hdegraded⟩ := @destroy_for_good World.bereaved false (fun _ => false) 2 hgood .plain
  obtain ⟨starts, hrel⟩ := (hok _).1 hrun
  obtain ⟨hgood', hplace⟩ := hbereft .plain _ (.inl rfl) (.inl ⟨(), hrun⟩)
  exact ⟨_, starts, hrun, hrel, rfl, hplace, hdegraded 0 _ hgood' hplace.running⟩

/-! ## The end of a thread -/

namespace Thread

theorem due?_eq_none_iff {t : Thread} : t.due? = none ↔ ∀ kind ∈ t.used, t.slot kind = .destroyed := by
  unfold due?
  rw [List.find?_eq_none]
  refine forall₂_congr fun kind _ => ?_
  cases t.slot kind <;> simp [Slot.isDestroyed]

theorem slot_of_due? {t : Thread} (h : t.due? = some kind) : t.slot kind ≠ .destroyed := by
  intro hslot
  have hdue := List.find?_some h
  simp [hslot, Slot.isDestroyed] at hdue

end Thread

namespace Script

variable {α : Type} {logs : List (LogEntry Reply) × List (LogEntry Reply)} {o : Option (Kind × List (LogEntry Reply))}

theorem closing_ok {x : Action Unit} {log : List (LogEntry Reply)} (h : closing x w = .ok log w') :
    ∃ q, x { w with log := #[] } = .ok () q ∧ w' = { q with log := w.log } := by
  obtain ⟨r, m, hlog, hret⟩ := Exec.bind_ok h
  cases hret
  obtain ⟨⟨⟩, q, hrun, hrest⟩ := Exec.bind_ok (x := Exec.noPanic x) (s := { w with log := #[] }) hlog
  cases hrest
  exact ⟨q, Exec.noPanic_ok_iff.1 hrun, rfl⟩

/-- A turn destroys the place that is due, and brings none back. -/
theorem destroyNext_spec (hu : ∀ n, u.Tame n) (hw : w.Good) (h : destroyNext u w = .ok o w') :
    w.thread.due? = none ∧ w' = w ∨
    w'.Good ∧ ∃ kind, w.thread.due? = some kind ∧ w'.thread.slot kind = .destroyed ∧
      ∀ other, w.thread.slot other = .destroyed → w'.thread.slot other = .destroyed := by
  obtain ⟨q, m, hread, h⟩ := Exec.bind_ok h
  cases hread
  cases hdue : w.thread.due? with
  | none =>
    rw [hdue] at h
    cases h
    exact Or.inl ⟨rfl, rfl⟩
  | some kind =>
    rw [hdue] at h
    obtain ⟨log, w₁, hclosing, hret⟩ := Exec.bind_ok h
    cases hret
    obtain ⟨q, hrun, rfl⟩ := closing_ok hclosing
    have hfresh := hw.of_quiet (.log w #[])
    have hwaiting : q.waiting = w.waiting :=
      ((Thread.proceeds_destroy (hu 0) kind (Nat.zero_le _)).ok hfresh (Nat.zero_le _) hrun).1.waiting_eq
    have hend (other : Kind) (hslot : kind = other ∨ w.thread.slot other = .destroyed) :
        q.Good ∧ q.thread.slot other = .destroyed := by
      obtain ⟨hq, hbereft⟩ := Thread.bereft_of_destroy (hu _) hfresh hslot (Or.inl ⟨(), hrun⟩)
      refine ⟨hq, World.Bereft.running ?_⟩
      rw [hwaiting]
      exact hbereft
    obtain ⟨hq, hslot⟩ := hend kind (.inl rfl)
    exact Or.inr ⟨hq.of_quiet (.log q w.log), kind, rfl, hslot, fun other hother => (hend other (.inr hother)).2⟩

/-- When a thread has ended, none of its places is due: those that were used are destroyed, also one that was used for
the first time while the other one was destroyed. -/
theorem nothing_due (hu : ∀ n, u.Tame n) (hw : w.Good) (h : destroyTables u w = .ok logs w') :
    w'.thread.due? = none := by
  obtain ⟨first, w₁, hfirst, h⟩ := Exec.bind_ok h
  obtain ⟨second, w₂, hsecond, hret⟩ := Exec.bind_ok h
  cases hret
  rcases destroyNext_spec hu hw hfirst with ⟨hnone, rfl⟩ | ⟨hw₁, a, -, ha, -⟩
  · rcases destroyNext_spec hu hw hsecond with ⟨hnone', rfl⟩ | ⟨-, b, hb, -⟩
    · exact hnone'
    · rw [hnone] at hb
      cases hb
  · rcases destroyNext_spec hu hw₁ hsecond with ⟨hnone, rfl⟩ | ⟨-, b, hb, hb', hkept⟩
    · exact hnone
    · -- two turns are enough for two places
      have hne : b ≠ a := fun heq => Thread.slot_of_due? hb (heq ▸ ha)
      have ha' := hkept a ha
      refine Thread.due?_eq_none_iff.2 fun kind _ => ?_
      cases kind <;> cases a <;> cases b <;> first | exact ha' | exact hb' | exact absurd rfl hne

-- the plain table of a latecomer is made while the inheritable one is destroyed, and lets its value go after it
example : ((sessionWithin false 3 1 latecomer).run' .start).map
    (fun r => (r.thread.exitInheritable.length, r.thread.exitPlain.length)) = some (4, 1) := by decide +kernel

end Script

end PerThread
