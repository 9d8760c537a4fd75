import Mathlib.Logic.Relation
import PerThread.Proofs.Session.Whole

/-!
# Elementary changes of a session

All that happens in a session is a course of elementary changes, some of which start and end threads. `Change n`
allows those that leave the `n` threads in place that were started first: a thread with fewer than `n` others
beneath it neither ends nor loses its tables.

The changes say about tables no more than is needed to see what becomes of the references: a place gets a whole
table of references that were handed out, unless the place is destroyed, and a destroyed place stays so.

| here | there |
| --- | --- |
| `Quiet` | the log, the counts of references and calls, the handles, what is in use, captures taken |
| `Change.fill` | a store, a lookup, a removal, a capture installed |
| `Change.destroy` | the end of a thread reaches the table |
| `Change.start`, `Change.finish` | a thread waits for one that it starts |
-/

namespace PerThread

variable {n : Nat} {w w' w₁ w₂ : World} {r : Ref}

namespace World

/-- A table accounts for the reference, that of a thread or that of a capture. -/
inductive Owns (w : World) (r : Ref) : Prop
  | running (kind : Kind) (h : r ∈ (w.thread.slot kind).values)
  | waiting (t : Thread) (ht : t ∈ w.waiting) (kind : Kind) (h : r ∈ (t.slot kind).values)
  | captured (name : String) (c : Inheritance) (hc : w.captures.find? name = some c) (h : r ∈ c.values)

/-- Whole, and tables have references only that were handed out. -/
structure Good (w : World) : Prop extends w.Whole where
  bounded : ∀ r, w.Owns r → r < w.objects.size

/-- No table, no thread and no identity is concerned. -/
structure Quiet (w w' : World) : Prop where
  nextCode_eq : w'.nextCode = w.nextCode
  identities_eq : w'.catalog.map Variable.identity = w.catalog.map Variable.identity
  size_eq : w'.objects.size = w.objects.size
  waiting_eq : w'.waiting = w.waiting
  slot_eq : ∀ kind, w'.thread.slot kind = w.thread.slot kind
  captures_find : ∀ name c, w'.captures.find? name = some c → w.captures.find? name = some c

inductive Change (n : Nat) (w : World) : World → Prop
  | quiet {w' : World} (h : w.Quiet w') : Change n w w'
  | object (value : Datum) (onDestroy : List Step) :
      Change n w { w with objects := w.objects.push ⟨value, onDestroy, 1⟩ }
  | create (name : Int) (kind : Kind) (recipe : Recipe (Initial Step) (Derivation Step)) :
      Change n w
        { w with
          nextCode := HashCode.next w.nextCode
          catalog := w.catalog.push ⟨⟨w.catalog.size, w.nextCode⟩, kind, name, recipe, 0⟩
          handles := w.handles.set name ⟨kind, ⟨w.catalog.size, w.nextCode⟩⟩ }
  | fill (kind : Kind) {t : Table Ref} (hslot : w.thread.slot kind ≠ .destroyed) (ht : t.Whole)
      (hr : ∀ r ∈ t.values, r < w.objects.size) :
      Change n w { w with thread := w.thread.setSlot kind (.present t) }
  | capture (name : String) {c : Inheritance} (hc : c.Whole) (hr : ∀ r ∈ c.values, r < w.objects.size) :
      Change n w { w with captures := w.captures.set name c }
  | destroy (kind : Kind) (hn : n ≤ w.waiting.length) :
      Change n w { w with thread := w.thread.setSlot kind .destroyed }
  | start : Change n w { w with waiting := w.thread :: w.waiting, thread := .start }
  | finish {t : Thread} {rest : List Thread} (h : w.waiting = t :: rest) (hn : n ≤ w.waiting.length) :
      Change n w { w with thread := t, waiting := rest }

def Course (n : Nat) : World → World → Prop := Relation.ReflTransGen (Change n)

/-! ## Quiet changes -/

namespace Quiet

theorem of_eq (hcode : w'.nextCode = w.nextCode) (hcatalog : w'.catalog = w.catalog)
    (hobjects : w'.objects.size = w.objects.size) (hwaiting : w'.waiting = w.waiting)
    (hplain : w'.thread.plain = w.thread.plain) (hinheritable : w'.thread.inheritable = w.thread.inheritable)
    (hcaptures : w'.captures = w.captures) : w.Quiet w' where
  nextCode_eq := hcode
  identities_eq := by rw [hcatalog]
  size_eq := hobjects
  waiting_eq := hwaiting
  slot_eq kind := by
    cases kind with
    | plain => exact hplain
    | inheritable => exact hinheritable
  captures_find _ _ h := hcaptures ▸ h

theorem owns (h : w.Quiet w') (hr : w'.Owns r) : w.Owns r := by
  cases hr with
  | running kind hr => exact .running kind (h.slot_eq kind ▸ hr)
  | waiting t ht kind hr => exact .waiting t (h.waiting_eq ▸ ht) kind hr
  | captured name c hc hr => exact .captured name c (h.captures_find name c hc) hr

theorem log (w : World) (log : Array (LogEntry Reply)) : w.Quiet { w with log } := .of_eq rfl rfl rfl rfl rfl rfl rfl

theorem markUse (w : World) (kind : Kind) : w.Quiet { w with thread := w.thread.markUse kind } :=
  .of_eq rfl rfl rfl rfl rfl rfl rfl

theorem recount (w : World) (r : Ref) (f : Nat → Nat) : w.Quiet (w.recount r f) :=
  .of_eq rfl rfl (Array.size_modify ..) rfl rfl rfl rfl

theorem erase_capture (w : World) (name : String) :
    w.Quiet { w with captures := w.captures.erase name } where
  nextCode_eq := rfl
  identities_eq := rfl
  size_eq := rfl
  waiting_eq := rfl
  slot_eq _ := rfl
  captures_find other c h := by
    by_cases hne : other = name
    · subst hne
      simp [Registry.find?_erase_self] at h
    · rwa [Registry.find?_erase_of_ne _ hne] at h

theorem whole_of (h : w.Quiet w') (hw : w.Whole) : w'.Whole where
  thread := by
    have hplain : w'.thread.plain = w.thread.plain := h.slot_eq .plain
    have hinheritable : w'.thread.inheritable = w.thread.inheritable := h.slot_eq .inheritable
    exact ⟨hplain ▸ hw.thread.plain, hinheritable ▸ hw.thread.inheritable⟩
  waiting := h.waiting_eq ▸ hw.waiting
  captures name c hc := hw.captures name c (h.captures_find name c hc)

end Quiet

/-! ## What a change preserves -/

namespace Change

theorem size_le (h : w.Change n w') : w.objects.size ≤ w'.objects.size := by
  cases h with
  | quiet h => exact Nat.le_of_eq h.size_eq.symm
  | object value onDestroy =>
    rw [Array.size_push]
    exact Nat.le_succ _
  | _ => exact Nat.le_refl _

end Change

theorem Owns.of_eq (h : w'.Owns r) (hthread : w'.thread = w.thread) (hwaiting : w'.waiting = w.waiting)
    (hcaptures : w'.captures = w.captures) : w.Owns r := by
  cases h with
  | running kind h => exact .running kind (hthread ▸ h)
  | waiting t ht kind h => exact .waiting t (hwaiting ▸ ht) kind h
  | captured name c hc h => exact .captured name c (hcaptures ▸ hc) h

/-- What the tables of a state have that differs from `w` in one place of the running thread. -/
theorem Owns.of_setSlot {kind : Kind} {s : Slot} (h : { w with thread := w.thread.setSlot kind s }.Owns r) :
    r ∈ s.values ∨ w.Owns r := by
  cases h with
  | running other h =>
    by_cases hk : other = kind
    · subst hk
      simp only [Thread.slot_setSlot_self] at h
      exact Or.inl h
    · simp only [Thread.slot_setSlot_of_ne w.thread hk s] at h
      exact Or.inr (.running other h)
  | waiting t ht other h => exact Or.inr (.waiting t ht other h)
  | captured name c hc h => exact Or.inr (.captured name c hc h)

theorem Owns.of_capture {name : String} {c : Inheritance}
    (h : { w with captures := w.captures.set name c }.Owns r) : r ∈ c.values ∨ w.Owns r := by
  cases h with
  | running kind h => exact Or.inr (.running kind h)
  | waiting t ht kind h => exact Or.inr (.waiting t ht kind h)
  | captured other c' hc h =>
    by_cases hne : other = name
    · subst hne
      rw [Registry.find?_set_self] at hc
      cases hc
      exact Or.inl h
    · rw [Registry.find?_set_of_ne _ hne] at hc
      exact Or.inr (.captured other c' hc h)

theorem Owns.of_start (h : { w with waiting := w.thread :: w.waiting, thread := .start }.Owns r) : w.Owns r := by
  cases h with
  | running kind h => cases kind <;> cases h
  | waiting t ht kind h =>
    rcases List.mem_cons.1 ht with rfl | ht
    · exact .running kind h
    · exact .waiting t ht kind h
  | captured name c hc h => exact .captured name c hc h

theorem Owns.of_finish {t : Thread} {rest : List Thread} (hwaiting : w.waiting = t :: rest)
    (h : { w with thread := t, waiting := rest }.Owns r) : w.Owns r := by
  have hmem : ∀ s, s = t ∨ s ∈ rest → s ∈ w.waiting := by
    intro s hs
    rw [hwaiting]
    exact List.mem_cons.2 hs
  cases h with
  | running kind h => exact .waiting t (hmem t (Or.inl rfl)) kind h
  | waiting s hs kind h => exact .waiting s (hmem s (Or.inr hs)) kind h
  | captured name c hc h => exact .captured name c hc h

theorem Good.of_quiet (h : w.Good) (hq : w.Quiet w') : w'.Good :=
  ⟨hq.whole_of h.toWhole, fun r hr => hq.size_eq ▸ h.bounded r (hq.owns hr)⟩

theorem Good.setSlot (h : w.Good) (kind : Kind) {s : Slot} (hs : s.Whole)
    (hr : ∀ r ∈ s.values, r < w.objects.size) : { w with thread := w.thread.setSlot kind s }.Good := by
  refine ⟨⟨h.thread.setSlot hs kind, h.waiting, h.captures⟩, ?_⟩
  intro r howns
  exact howns.of_setSlot.elim (hr r) (h.bounded r)

/-- Good states stay good. -/
theorem Change.good (hc : w.Change n w') (h : w.Good) : w'.Good := by
  cases hc with
  | quiet hq => exact h.of_quiet hq
  | object value onDestroy =>
    refine ⟨⟨h.thread, h.waiting, h.captures⟩, ?_⟩
    intro r howns
    rw [Array.size_push]
    exact Nat.lt_succ_of_lt (h.bounded r (howns.of_eq rfl rfl rfl))
  | create name kind recipe =>
    refine ⟨⟨h.thread, h.waiting, h.captures⟩, ?_⟩
    intro r howns
    exact h.bounded r (howns.of_eq rfl rfl rfl)
  | fill kind _ ht hr => exact h.setSlot kind (Slot.whole_present ht) hr
  | capture name hc hr =>
    have hcalm := World.Calm.set_capture ⟨h.toWhole, rfl⟩ name hc
    refine ⟨hcalm.toWhole, ?_⟩
    intro r howns
    exact howns.of_capture.elim (hr r) (h.bounded r)
  | destroy kind _ => exact h.setSlot kind Slot.whole_destroyed nofun
  | start =>
    refine ⟨⟨Thread.whole_start, ?_, h.captures⟩, fun r howns => h.bounded r howns.of_start⟩
    exact List.forall_mem_cons.2 ⟨h.thread, h.waiting⟩
  | finish hwaiting _ =>
    have hall := h.waiting
    rw [hwaiting] at hall
    obtain ⟨ht, hrest⟩ := List.forall_mem_cons.1 hall
    exact ⟨⟨ht, hrest, h.captures⟩, fun r howns => h.bounded r (howns.of_finish hwaiting)⟩

/-! ## Courses -/

namespace Course

theorem single (h : w.Change n w') : Course n w w' := Relation.ReflTransGen.single h

/-- What every change preserves is preserved. -/
theorem preserves {I : World → Prop} (hc : Course n w w') (hstep : ∀ q q', q.Change n q' → I q → I q') (h : I w) :
    I w' := by
  induction hc with
  | refl => exact h
  | tail _ hlast ih => exact hstep _ _ hlast ih

theorem good (hc : Course n w w') (h : w.Good) : w'.Good := hc.preserves (fun _ _ hq => hq.good) h

theorem size_le (hc : Course n w w') : w.objects.size ≤ w'.objects.size :=
  hc.preserves (fun _ _ hq hle => Nat.le_trans hle hq.size_le) (Nat.le_refl _)

end Course

/-- A course at whose end the same threads wait, and the same identities are in use. -/
structure Since (n : Nat) (w w' : World) : Prop where
  course : Course n w w'
  waiting_eq : w'.waiting = w.waiting
  inUse_eq : w'.inUse = w.inUse

namespace Since

theorem refl (n : Nat) (w : World) : w.Since n w := ⟨Relation.ReflTransGen.refl, rfl, rfl⟩

theorem trans (h₁ : w.Since n w₁) (h₂ : w₁.Since n w₂) : w.Since n w₂ :=
  ⟨h₁.course.trans h₂.course, h₂.waiting_eq.trans h₁.waiting_eq, h₂.inUse_eq.trans h₁.inUse_eq⟩

theorem change (h : w.Change n w') (hwaiting : w'.waiting = w.waiting) (huse : w'.inUse = w.inUse) : w.Since n w' :=
  ⟨.single h, hwaiting, huse⟩

theorem quiet (h : w.Quiet w') (huse : w'.inUse = w.inUse) : w.Since n w' := .change (.quiet h) h.waiting_eq huse

theorem lt_size (h : w.Since n w') (hr : r < w.objects.size) : r < w'.objects.size :=
  Nat.lt_of_lt_of_le hr h.course.size_le

theorem mem_inUse (h : w.Since n w') {key : Identity} (hkey : key ∈ w.inUse) : key ∈ w'.inUse := by
  rwa [h.inUse_eq]

end Since

/-! ## What becomes of one thread -/

/-- The thread that was started when only `ts` were there has the property. It may be waiting. -/
def Among (P : Thread → Prop) (ts : List Thread) (w : World) : Prop :=
  ∃ started t, w.thread :: w.waiting = started ++ t :: ts ∧ P t

/-- A property of a thread's places that changes leave as it is while the thread is there. -/
structure Lasting (P : Thread → Prop) : Prop where
  of_slots : ∀ s t : Thread, (∀ kind, t.slot kind = s.slot kind) → P s → P t
  filled : ∀ t : Thread, ∀ kind u, t.slot kind ≠ .destroyed → P t → P (t.setSlot kind (.present u))

section Among

variable {P : Thread → Prop} {ts : List Thread}

theorem among_running (h : P w.thread) : w.Among P w.waiting := ⟨[], w.thread, rfl, h⟩

/-- If no more threads wait than there were before, then the thread is running. -/
theorem Among.running (h : w.Among P w.waiting) : P w.thread := by
  obtain ⟨started, t, hstack, ht⟩ := h
  cases started with
  | nil =>
    obtain ⟨rfl, -⟩ := List.cons.inj hstack
    exact ht
  | cons s started =>
    have hlength := congrArg List.length hstack
    simp only [List.length_cons, List.length_append] at hlength
    omega

/-- The thread at the top changes. If it is the one in question, then it keeps the property. -/
theorem Among.top {t : Thread} (h : w.Among P ts) (hthread : w'.thread = t) (hwaiting : w'.waiting = w.waiting)
    (hP : P w.thread → w.waiting = ts → P t) : w'.Among P ts := by
  obtain ⟨started, s, hstack, hs⟩ := h
  cases started with
  | nil =>
    obtain ⟨rfl, hts⟩ := List.cons.inj hstack
    exact ⟨[], t, by rw [hthread, hwaiting, hts]; rfl, hP hs hts⟩
  | cons top started =>
    obtain ⟨-, hrest⟩ := List.cons.inj hstack
    exact ⟨t :: started, s, by rw [hthread, hwaiting, hrest]; rfl, hs⟩

/-- The end of a thread, and that of a table, concern threads above the one in question only. -/
theorem Change.among (hc : w.Change (ts.length + 1) w') (hP : Lasting P) (h : w.Among P ts) : w'.Among P ts := by
  cases hc with
  | quiet hq => exact h.top rfl hq.waiting_eq fun hs _ => hP.of_slots _ _ hq.slot_eq hs
  | object value onDestroy => exact h.top rfl rfl fun hs _ => hs
  | create name _ recipe => exact h.top rfl rfl fun hs _ => hs
  | capture name _ _ => exact h.top rfl rfl fun hs _ => hs
  | fill kind hslot _ _ => exact h.top rfl rfl fun hs _ => hP.filled _ _ _ hslot hs
  | destroy kind hn =>
    refine h.top rfl rfl fun _ hts => ?_
    rw [hts] at hn
    omega
  | start =>
    obtain ⟨started, t, hstack, hs⟩ := h
    exact ⟨.start :: started, t, congrArg (Thread.start :: ·) hstack, hs⟩
  | @finish top rest hwaiting hn =>
    obtain ⟨started, t, hstack, hs⟩ := h
    cases started with
    | nil =>
      obtain ⟨-, hts⟩ := List.cons.inj hstack
      rw [hts] at hn
      omega
    | cons s started =>
      obtain ⟨-, hrest⟩ := List.cons.inj hstack
      exact ⟨started, t, hwaiting.symm.trans hrest, hs⟩

theorem Course.among (hc : Course (ts.length + 1) w w') (hP : Lasting P) (h : w.Among P ts) : w'.Among P ts :=
  hc.preserves (fun _ _ hq => hq.among hP) h

/-- The running thread has the property for as long as it does not end. -/
theorem Since.lasting (hs : w.Since (w.waiting.length + 1) w') (hP : Lasting P) (h : P w.thread) : P w'.thread := by
  have hamong := hs.course.among hP (among_running h)
  rw [← hs.waiting_eq] at hamong
  exact hamong.running

end Among

theorem lasting_destroyed (kind : Kind) : Lasting fun t => t.slot kind = .destroyed where
  of_slots s t heq hs := (heq kind).trans hs
  filled t other u hslot hs := by
    have hne : kind ≠ other := by
      rintro rfl
      exact hslot hs
    exact (Thread.slot_setSlot_of_ne _ hne _).trans hs

theorem lasting_standing (kind : Kind) : Lasting fun t => t.slot kind ≠ .destroyed where
  of_slots s t heq hs := by rwa [heq kind]
  filled t other u _ hs := by
    by_cases hk : kind = other
    · subst hk
      simp
    · rwa [Thread.slot_setSlot_of_ne _ hk]

theorem good_start : World.start.Good where
  toWhole := whole_start
  bounded r h := by
    cases h with
    | running kind h => cases kind <;> cases h
    | waiting t ht => cases ht
    | captured name c hc => cases hc

theorem live_of_mem {key : Identity} (h : key ∈ w.inUse) : w.live key = true := by
  simp [live, h]

end World

end PerThread
