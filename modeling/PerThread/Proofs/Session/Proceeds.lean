import PerThread.Proofs.History.Accounting
import PerThread.Proofs.Session.Course
import PerThread.Proofs.Session.Trail

/-!
# Programs that proceed by elementary changes

`Proceeds n x w P`: from the good state `w` the program `x` takes a course of elementary changes, whether it ends,
panics or aborts. When it ends or panics the same threads wait and the same identities are in use as before, and a
result satisfies `P` in the last state. There is one rule for each way to put programs together. After an abort
nothing runs any more, so all that is known then is that there was a course: threads may be left unfinished.

`Tame` programs do so from every state. User code is taken to be tame, and to hand out references to objects that
there are; then all operations of the library proceed.
-/

namespace PerThread

open World (Since Course Change Quiet)

variable {n : Nat} {w w' : World} {key : Identity} {kind : Kind} {α β : Type}

namespace Action

variable {x : Action α} {P : α → World → Prop} {Q : β → World → Prop} {c : Action Unit} {r : Ref}

/-- What is asked of an outcome, from `w` on. -/
def Outcome (n : Nat) (w : World) (P : α → World → Prop) : EStateM.Result Interrupt World α → Prop
  | .ok a w' => w.Since n w' ∧ P a w'
  | .error (.panic _) w' => w.Since n w'
  | .error .abort w' => Course n w w'

def Proceeds (n : Nat) (x : Action α) (w : World) (P : α → World → Prop) : Prop :=
  w.Good → n ≤ w.waiting.length + 1 → Outcome n w P (x w)

abbrev Tame (n : Nat) (x : Action α) : Prop := ∀ w, Proceeds n x w fun _ _ => True

/-- The post-condition: there is such an object. -/
abbrev Made (r : Ref) (w : World) : Prop := r < w.objects.size

/-- The post-condition: the object has just been made. No table has it, and there is one reference to it. -/
structure Fresh (r : Ref) (w : World) : Prop where
  lt : r < w.objects.size
  refs_eq : (w.object r).refs = 1
  unowned : ¬ w.Owns r

theorem Outcome.after {q : World} {e : EStateM.Result Interrupt World α} (h : Outcome n q P e) (hq : w.Since n q) :
    Outcome n w P e := by
  rcases e with ⟨a, w'⟩ | ⟨message | _, w'⟩
  · exact ⟨hq.trans h.1, h.2⟩
  · exact hq.trans h
  · exact hq.course.trans h

namespace Proceeds

theorem pure {a : α} (h : P a w) : Proceeds n (Pure.pure a) w P := fun _ _ => ⟨.refl n w, h⟩

/-- Of the state at the beginning it is known that it is good. -/
theorem known (h : w.Good → Proceeds n x w P) : Proceeds n x w P := fun hw => h hw hw

theorem mono {P' : α → World → Prop} (h : Proceeds n x w P) (hP : ∀ a w', w.Since n w' → P a w' → P' a w') :
    Proceeds n x w P' := by
  intro hw hn
  have ho := h hw hn
  rcases hrun : x w with ⟨a, w'⟩ | ⟨message | _, w'⟩
  · rw [hrun] at ho
    exact ⟨ho.1, hP a w' ho.1 ho.2⟩
  · rw [hrun] at ho
    exact ho
  · rw [hrun] at ho
    exact ho

theorem bind {f : α → Action β} (hx : Proceeds n x w P)
    (hf : ∀ a w', w.Since n w' → P a w' → Proceeds n (f a) w' Q) : Proceeds n (x >>= f) w Q := by
  intro hw hn
  have ho := hx hw hn
  show Outcome n w Q (EStateM.bind x f w)
  unfold EStateM.bind
  rcases hrun : x w with ⟨a, w'⟩ | ⟨message | _, w'⟩
  · rw [hrun] at ho
    obtain ⟨hs, ha⟩ := ho
    have hn' : n ≤ w'.waiting.length + 1 := by rwa [hs.waiting_eq]
    exact (hf a w' hs ha (hs.course.good hw) hn').after hs
  · rw [hrun] at ho
    exact ho
  · rw [hrun] at ho
    exact ho

theorem andThen {f : Action β} (hx : Proceeds n x w P) (hf : ∀ w', w.Since n w' → Proceeds n f w' Q) :
    Proceeds n (x >>= fun _ => f) w Q :=
  hx.bind fun _ w' hs _ => hf w' hs

theorem returning {f : α → β} (hx : Proceeds n x w P) : Proceeds n (do return f (← x)) w fun _ _ => True :=
  hx.bind fun _ _ _ _ => pure trivial

theorem read {f : World → Action β} (h : Proceeds n (f w) w Q) : Proceeds n (get >>= f) w Q := h

theorem update {f : World → World} (h : w.Since n (f w)) : Proceeds n (modify f) w fun _ w' => w' = f w :=
  fun _ _ => ⟨h, rfl⟩

theorem write (h : w.Since n w') : Proceeds n (set w') w fun _ q => q = w' := fun _ _ => ⟨h, rfl⟩

theorem panic (message : String) : Proceeds n (throw (.panic message) : Action α) w P := fun _ _ => .refl n w

theorem abort : Proceeds n (throw .abort : Action α) w P := fun _ _ => Relation.ReflTransGen.refl

/-- If the program has a result, then it satisfies the post-condition. -/
theorem ok (h : Proceeds n x w P) (hw : w.Good) (hn : n ≤ w.waiting.length + 1) {a : α} (hrun : x w = .ok a w') :
    w.Since n w' ∧ P a w' := by
  have ho := h hw hn
  rwa [hrun] at ho

/-- If the program panics, then the same threads wait and the same identities are in use as before. -/
theorem panicked (h : Proceeds n x w P) (hw : w.Good) (hn : n ≤ w.waiting.length + 1) {message : String}
    (hrun : x w = .error (.panic message) w') : w.Since n w' := by
  have ho := h hw hn
  rwa [hrun] at ho

/-- However the program ends, there was a course. -/
theorem course (h : Proceeds n x w P) (hw : w.Good) (hn : n ≤ w.waiting.length + 1) (hend : Exec.Ends x w w') :
    Course n w w' := by
  have ho := h hw hn
  rcases hend with ⟨a, hrun⟩ | ⟨_ | _, hrun⟩
  · rw [hrun] at ho
    exact ho.1.course
  · rw [hrun] at ho
    exact Since.course ho
  · rw [hrun] at ho
    exact ho

/-! ## Panics caught -/

theorem attempt (h : Proceeds n x w P) :
    Proceeds n (Exec.attempt x) w fun e w' => ∀ a, e = .ok a → P a w' := by
  intro hw hn
  have ho := h hw hn
  unfold Exec.attempt
  rcases hrun : x w with ⟨a, w'⟩ | ⟨message | _, w'⟩
  · rw [hrun] at ho
    refine ⟨ho.1, ?_⟩
    rintro _ ⟨⟩
    exact ho.2
  · rw [hrun] at ho
    exact ⟨ho, nofun⟩
  · rw [hrun] at ho
    exact ho

theorem resume (message : String) (hc : Tame n c) : Proceeds n (Exec.resume message c : Action α) w P := by
  refine (hc w).attempt.bind ?_
  rintro (_ | _) w' _ _
  · exact abort
  · exact panic message

theorem onPanic (h : Proceeds n x w P) (hc : Tame n c) : Proceeds n (Exec.onPanic x c) w P := by
  refine h.attempt.bind ?_
  rintro (message | a) w' _ ha
  · exact resume message hc
  · exact pure (ha a rfl)

theorem ensuring (h : Proceeds n x w P) (hc : Tame n c) : Proceeds n (Exec.ensuring x c) w fun _ _ => True := by
  refine h.attempt.bind ?_
  rintro (message | a) w' _ _
  · exact resume message hc
  · exact (hc w').andThen fun _ _ => pure trivial

theorem noPanic (h : Proceeds n x w P) : Proceeds n (Exec.noPanic x) w P := by
  refine h.attempt.bind ?_
  rintro (_ | a) w' _ ha
  · exact abort
  · exact pure (ha a rfl)

end Proceeds

/-! ## One after another -/

namespace Tame

variable {ι : Type}

theorem forM {f : ι → Action PUnit} (h : ∀ i, Tame n (f i)) (l : List ι) : Tame n (l.forM f) := by
  induction l with
  | nil => exact fun _ => .pure trivial
  | cons i rest ih => exact fun w => (h i w).andThen fun w' _ => ih w'

theorem option_forM {f : ι → Action PUnit} (h : ∀ i, Tame n (f i)) (o : Option ι) : Tame n (o.forM f) := by
  cases o with
  | none => exact fun _ => .pure trivial
  | some i => exact h i

theorem mapM {f : ι → Action α} (h : ∀ i, Tame n (f i)) (l : List ι) : Tame n (l.mapM f) := by
  induction l with
  | nil => exact fun _ => .pure trivial
  | cons i rest ih =>
    intro w
    rw [List.mapM_cons]
    refine (h i w).bind fun _ w' _ _ => ?_
    exact (ih w').bind fun _ _ _ _ => .pure trivial

end Tame

end Action

/-! ## Elementary actions -/

open Action (Proceeds Tame Fresh Outcome)

/-- User code that takes a course of elementary changes. -/
structure UserCode.Tame (n : Nat) (u : UserCode) : Prop where
  construct : ∀ key w, Proceeds n (u.construct key) w Fresh
  derive : ∀ key parent w, Proceeds n (u.derive key parent) w Fresh
  finalize : ∀ r, Action.Tame n (u.finalize r)

variable {u : UserCode}

namespace Action

/-- What changes no more than the log, say. -/
theorem tame_quietly {f : World → World} (h : ∀ w : World, w.Quiet (f w)) (huse : ∀ w : World, (f w).inUse = w.inUse) :
    Tame n (modify f) :=
  fun w => (Proceeds.update (.quiet (h w) (huse w))).mono fun _ _ _ _ => trivial

theorem tame_report (e : LogEntry Reply) : Tame n (report e) :=
  tame_quietly (fun w => .log w _) fun _ => rfl

theorem tame_retain (r : Ref) : Tame n (retain r) := tame_quietly (fun w => .recount w r _) fun _ => rfl

theorem proceeds_newObject (value : Datum) (onDestroy : List Step) (w : World) :
    Proceeds n (newObject value onDestroy) w Fresh := by
  refine .known fun hw => .read ?_
  refine (Proceeds.write (.change (.object value onDestroy) rfl rfl)).bind ?_
  rintro _ _ _ rfl
  refine .pure ⟨?_, ?_, ?_⟩
  · show w.objects.size < (w.objects.push _).size
    rw [Array.size_push]
    exact Nat.lt_succ_self _
  · simp [World.object]
  · intro howns
    exact Nat.lt_irrefl _ (hw.bounded _ (howns.of_eq rfl rfl rfl))

theorem tame_view (r : Ref) : Tame n (view r) := fun _ => .read (.pure trivial)

theorem tame_release (hu : u.Tame n) (r : Ref) : Tame n (release u r) := by
  intro w
  refine (tame_quietly (fun w => .recount w r _) (fun _ => rfl) w).andThen fun w' _ => ?_
  refine .read ?_
  by_cases hzero : (w'.object r).refs = 0
  · rw [if_pos hzero]
    exact hu.finalize r w'
  · rw [if_neg hzero]
    exact .pure trivial

theorem tame_releaseAll (hu : u.Tame n) (rs : List Ref) : Tame n (releaseAll u rs) := by
  induction rs with
  | nil => exact fun _ => .pure trivial
  | cons r rest ih => exact fun w => (tame_release hu r w).ensuring ih

theorem proceeds_slot (kind : Kind) (w : World) :
    Proceeds n (slot kind) w fun s w' => w'.thread.slot kind = s := by
  refine (tame_quietly (fun w => .markUse w kind) (fun _ => rfl) w).andThen fun w' _ => ?_
  exact .read (.pure rfl)

theorem tame_geometry (kind : Kind) : Tame n (geometry kind) := fun w => (proceeds_slot kind w).returning

/-- A whole table comes to a place that is not destroyed. -/
theorem tame_fill {t : Table Ref} (ht : t.Whole) (hr : ∀ r ∈ t.values, r < w.objects.size)
    (hslot : w.thread.slot kind ≠ .destroyed) : Proceeds n (setSlot kind (.present t)) w fun _ _ => True :=
  (Proceeds.update (.change (.fill kind hslot ht hr) rfl rfl)).mono fun _ _ _ _ => trivial

/-- An operation leaves a whole table behind, with the references that were there and the one passed in. -/
theorem proceeds_updateTable {t : Table Ref} {run : Table Ref → Liveness → β × Table Ref} (op : Op Ref)
    (hrun : (run t w.live).2 = op.table w.live t) (hslot : w.thread.slot kind = .present t)
    (hsubject : ∀ k ∈ op.subject?, k ∈ w.inUse) (hpassed : ∀ r ∈ op.passed?, r < w.objects.size) :
    Proceeds n (updateTable kind t run) w fun p _ => p.1 = (run t w.live).1 := by
  refine .known fun hw => ?_
  have hwhole : t.Whole := hw.thread.slot kind t hslot
  have heff := Op.effect hwhole.toWellFormed fun k hk => World.live_of_mem (hsubject k hk)
  rw [← hrun] at heff
  have hfill : ∀ r ∈ ((run t w.live).2.takeReclaimed.2).values, r < w.objects.size := by
    intro r hr
    obtain ⟨e, he, rfl⟩ := List.mem_map.1 hr
    rcases heff.mem_of_mem he with he | he
    · refine hw.bounded e.value (.running kind ?_)
      rw [hslot]
      exact List.mem_map_of_mem he
    · refine hpassed e.value ?_
      have hvalue : e.value ∈ op.arrivals.map Entry.value := List.mem_map_of_mem he
      rw [Op.values_arrivals] at hvalue
      exact Option.mem_toList.1 hvalue
  refine .read ?_
  refine (tame_fill ⟨heff.wellFormed.copy, rfl⟩ hfill (by simp [hslot])).andThen fun w' _ => ?_
  exact .pure rfl

theorem proceeds_holding {x : Action α} {P Q : α → World → Prop}
    (h : Proceeds n x { w with inUse := key :: w.inUse } P)
    (hPQ : ∀ a w', P a w' → Q a { w' with inUse := w'.inUse.erase key }) : Proceeds n (holding key x) w Q := by
  intro hw hn
  have hpush : w.Quiet { w with inUse := key :: w.inUse } := .of_eq rfl rfl rfl rfl rfl rfl rfl
  have ho := h (hw.of_quiet hpush) hn
  have hback (w' : World) (hs : Since n { w with inUse := key :: w.inUse } w') :
      w.Since n { w' with inUse := w'.inUse.erase key } := by
    have hpop : w'.Quiet { w' with inUse := w'.inUse.erase key } := .of_eq rfl rfl rfl rfl rfl rfl rfl
    refine ⟨((Course.single (.quiet hpush)).trans hs.course).trans (.single (.quiet hpop)), hs.waiting_eq, ?_⟩
    show w'.inUse.erase key = w.inUse
    rw [hs.inUse_eq, List.erase_cons_head]
  rw [holding_run]
  rcases hrun : x { w with inUse := key :: w.inUse } with ⟨a, w'⟩ | ⟨message | _, w'⟩
  · rw [hrun] at ho
    exact ⟨hback w' ho.1, hPQ a w' ho.2⟩
  · rw [hrun] at ho
    exact hback w' ho
  · rw [hrun] at ho
    exact (Course.single (.quiet hpush)).trans ho

end Action

end PerThread
