import PerThread.Proofs.History.Recall
import PerThread.Proofs.Reference.Core
import PerThread.Proofs.Reference.Registries
import PerThread.Proofs.Session.Whole

/-!
# What a state stands for

`Matches number s ms w`: the state `w` of a session stands for the state `s` of the reference, where `number`
tells the number of each object, and the threads that wait have the maps `ms`. A table stands for a map if it
has the mapped values for all live variables (`Mapped`). That is kept when the reference goes on (`State.Later`):
a variable that has lost its last handle does not become live again, and a new one has no entries yet.
-/

namespace PerThread.Reference

variable {number : Origin → Nat} {s s' : State} {ms : List (Kind → Option Map)} {w : World} {t : Table Ref}
  {m m' : Map} {live : Liveness} {kind : Kind} {n : Nat} {v : Value}

/-- The identity of the variable with this number. -/
def numbered (n : Nat) : Identity := ⟨n, HashCode.nth 0 n⟩

def Variable.real (n : Nat) (x : Variable) : PerThread.Variable := ⟨numbered n, x.kind, x.name, x.recipe, x.calls⟩

def Handle.real (h : Handle) : PerThread.Handle := ⟨h.kind, numbered h.number⟩

/-- Variables, handles and objects. -/
structure Backed (number : Origin → Nat) (s : State) (w : World) : Prop where
  direct : ∀ n, number (.made n) = n
  catalog : w.catalog.toList = s.vars.mapIdx Variable.real
  nextCode : w.nextCode = HashCode.nth 0 s.vars.length
  quiet : ∀ x ∈ s.vars, Quiet x.recipe
  handles : w.handles.Alike (fun h g => h = g.real) s.handles
  known : ∀ h ∈ s.handles.values, h.number < s.vars.length
  inUse : ∀ key ∈ w.inUse, ∃ h ∈ s.handles.values, key = numbered h.number
  tame : w.Tame
  data : ∀ v ∈ s.objects, (w.objects[number v.origin]?).map Object.value = some v.datum
  renamed : (s.objects.map (number ·.origin)).Perm (List.range w.objects.size)

/-- A table stands for a map. -/
structure Mapped (number : Origin → Nat) (s : State) (t : Table Ref) (m : Map) : Prop where
  whole : t.Whole
  known : ∀ e ∈ t.entries, e.key = numbered e.key.serial ∧ e.key.serial < s.vars.length
  bounded : ∀ n v, m n = some v → n < s.vars.length
  value : ∀ n, s.live n = true → t.valueOf? (numbered n) = (m n).map (number ·.origin)
  made : ∀ n v, m n = some v → v ∈ s.objects

/-- No table stands for no map. A thread that is ending stands for nothing. -/
inductive SlotMapped (number : Origin → Nat) (s : State) : Slot → Option Map → Prop
  | absent : SlotMapped number s .absent none
  | present {t : Table Ref} {m : Map} (h : Mapped number s t m) : SlotMapped number s (.present t) (some m)

def ThreadMapped (number : Origin → Nat) (s : State) (t : Thread) (maps : Kind → Option Map) : Prop :=
  ∀ kind, SlotMapped number s (t.slot kind) (maps kind)

def CaptureMapped (number : Origin → Nat) (s : State) (c : Inheritance) (m : Option Map) : Prop :=
  Option.Rel (Mapped number s) c.table m

/-- All the tables. -/
structure Stored (number : Origin → Nat) (s : State) (ms : List (Kind → Option Map)) (w : World) : Prop where
  thread : ThreadMapped number s w.thread s.maps
  waiting : List.Forall₂ (ThreadMapped number s) w.waiting ms
  captures : w.captures.Alike (CaptureMapped number s) s.captures

structure Matches (number : Origin → Nat) (s : State) (ms : List (Kind → Option Map)) (w : World) : Prop
    extends Backed number s w, Stored number s ms w

/-- Variables and objects have been added, handles may be gone. -/
structure State.Later (s s' : State) : Prop where
  le : s.vars.length ≤ s'.vars.length
  live : ∀ n < s.vars.length, s'.live n = true → s.live n = true
  objects : s.objects ⊆ s'.objects

/-! ## Variables -/

theorem numbered_inj {n k : Nat} (h : numbered n = numbered k) : n = k := congrArg Identity.serial h

namespace State

theorem live_iff : s.live n = true ↔ ∃ h ∈ s.handles.values, h.number = n := by
  simp [live, List.any_eq_true]

end State

namespace Backed

theorem size_eq (h : Backed number s w) : w.catalog.size = s.vars.length := by
  rw [← Array.length_toList, h.catalog, List.length_mapIdx]

theorem variableOf? (h : Backed number s w) (hn : n < s.vars.length) :
    w.variableOf? (numbered n) = some ((s.variableAt n).real n) := by
  have hget : w.catalog[n]? = w.catalog.toList[n]? := Array.getElem?_toList.symm
  unfold World.variableOf? State.variableAt
  rw [numbered, hget, h.catalog, List.getElem?_mapIdx, List.getD_eq_getElem?_getD, List.getElem?_eq_getElem hn]
  rfl

theorem quiet_at (h : Backed number s w) (hn : n < s.vars.length) : Quiet (s.variableAt n).recipe := by
  unfold State.variableAt
  rw [List.getD_eq_getElem?_getD, List.getElem?_eq_getElem hn]
  exact h.quiet _ (List.getElem_mem hn)

theorem bounded (h : Backed number s w) (hlive : s.live n = true) : n < s.vars.length := by
  obtain ⟨g, hg, rfl⟩ := State.live_iff.1 hlive
  exact h.known g hg

theorem live_eq (h : Backed number s w) (n : Nat) : w.live (numbered n) = s.live n := by
  rw [Bool.eq_iff_iff, State.live_iff]
  unfold World.live
  simp only [Bool.or_eq_true, List.any_eq_true, beq_iff_eq, List.contains_iff_mem]
  constructor
  · rintro (⟨g, hg, hkey⟩ | huse)
    · obtain ⟨g', hg', rfl⟩ := h.handles.exists_right hg
      exact ⟨g', hg', numbered_inj hkey⟩
    · obtain ⟨g, hg, hkey⟩ := h.inUse _ huse
      exact ⟨g, hg, (numbered_inj hkey).symm⟩
  · rintro ⟨g, hg, rfl⟩
    obtain ⟨g', hg', rfl⟩ := h.handles.swap.exists_right hg
    exact Or.inl ⟨_, hg', rfl⟩

theorem find?_handle (h : Backed number s w) (name : Int) :
    w.handles.find? name = (s.handles.find? name).map Handle.real := by
  have hrel := h.handles.find? name
  revert hrel
  cases w.handles.find? name <;> cases s.handles.find? name <;> rintro (heq | _)
  · rfl
  · exact congrArg some heq

theorem length_objects (h : Backed number s w) : s.objects.length = w.objects.size := by
  have := h.renamed.length_eq
  simpa using this

theorem object (h : Backed number s w) (hv : v ∈ s.objects) : (w.object (number v.origin)).value = v.datum := by
  obtain ⟨o, ho, hdatum⟩ := Option.map_eq_some_iff.1 (h.data v hv)
  unfold World.object
  rw [Array.getD_eq_getD_getElem?, ho]
  exact hdatum

theorem number_lt (h : Backed number s w) (hv : v ∈ s.objects) : number v.origin < w.objects.size := by
  obtain ⟨o, ho, -⟩ := Option.map_eq_some_iff.1 (h.data v hv)
  exact (Array.getElem?_eq_some_iff.1 ho).1

end Backed

/-! ## Tables and time -/

namespace State.Later

theorem same (hvars : s'.vars = s.vars) (hhandles : s'.handles = s.handles)
    (hobjects : s'.objects = s.objects) : s.Later s' := by
  refine ⟨Nat.le_of_eq (congrArg List.length hvars.symm), fun n _ => ?_, fun v => ?_⟩
  · unfold State.live
    rw [hhandles]
    exact id
  · rw [hobjects]
    exact id

end State.Later

namespace Mapped

/-- The table knows nothing of variables that are not there yet. -/
theorem later (h : Mapped number s t m) (hs : s.Later s') : Mapped number s' t m where
  whole := h.whole
  known e he := ⟨(h.known e he).1, Nat.lt_of_lt_of_le (h.known e he).2 hs.le⟩
  bounded n v hv := Nat.lt_of_lt_of_le (h.bounded n v hv) hs.le
  value n hn := by
    by_cases hlt : n < s.vars.length
    · exact h.value n (hs.live n hlt hn)
    · have hnone : m n = none := by
        cases hm : m n with
        | none => rfl
        | some v => exact absurd (h.bounded n v hm) hlt
      rw [hnone]
      refine Table.valueOf?_eq_none_iff.2 fun e he hkey => hlt ?_
      have hserial := (h.known e he).2
      rwa [hkey] at hserial
  made n v hv := hs.objects (h.made n v hv)

/-- An operation that makes of the values what `m'` says. -/
theorem after (h : Mapped number s t m) (hlive : ∀ n, live (numbered n) = s.live n) {op : Op Ref}
    (hop : ∀ key ∈ op.subject?, ∃ n < s.vars.length, key = numbered n ∧ s.live n = true)
    (hbounded : ∀ n v, m' n = some v → n < s.vars.length) (hmade : ∀ n v, m' n = some v → v ∈ s.objects)
    (hvalue : ∀ n, (op.write? (numbered n)).getD ((m n).map (number ·.origin)) = (m' n).map (number ·.origin)) :
    Mapped number s (op.table live t).copy m' := by
  have heffect : op.Effect live t (op.table live t) := by
    refine Op.effect h.whole.toWellFormed fun key hkey => ?_
    obtain ⟨n, -, rfl, hn⟩ := hop key hkey
    rw [hlive, hn]
  refine ⟨⟨heffect.wellFormed.copy, rfl⟩, fun e he => ?_, hbounded, fun n hn => ?_, hmade⟩
  · rcases heffect.mem_of_mem he with he | he
    · exact h.known e he
    · obtain ⟨n, hlt, hkey, -⟩ := hop e.key (Op.key_of_mem_arrivals he)
      rw [hkey]
      exact ⟨rfl, hlt⟩
  · have hkey := heffect.valueOf? h.whole.nodup ((hlive n).trans hn)
    rw [h.value n hn, hvalue n] at hkey
    exact hkey

/-- The first table. -/
theorem singleton (hn : n < s.vars.length) (hv : v ∈ s.objects) :
    Mapped number s (.singleton (numbered n) (number v.origin))
      (Function.update (fun _ => none) n (some v)) := by
  obtain ⟨hwf, hentries⟩ := Table.wellFormed_singleton (numbered n) (number v.origin)
  have honly {k : Nat} {v' : Value} (h : Function.update (fun _ => none) n (some v) k = some v') :
      k = n ∧ v' = v := by
    by_cases hk : k = n
    · subst hk
      rw [Function.update_self] at h
      exact ⟨rfl, (Option.some.inj h).symm⟩
    · rw [Function.update_of_ne hk] at h
      cases h
  refine ⟨⟨hwf, rfl⟩, fun e he => ?_, fun k v' h => ?_, fun k hk => ?_, fun k v' h => ?_⟩
  · rw [hentries, List.mem_singleton] at he
    subst he
    exact ⟨rfl, hn⟩
  · rw [(honly h).1]
    exact hn
  · unfold Table.valueOf?
    rw [hentries]
    by_cases heq : k = n
    · subst heq
      simp [Entry.of]
    · have hne : numbered n ≠ numbered k := fun h => heq (numbered_inj h).symm
      simp [Entry.of, hne, Function.update_of_ne heq]
  · rw [(honly h).2]
    exact hv

end Mapped

namespace SlotMapped

theorem later {slot : Slot} {o : Option Map} (h : SlotMapped number s slot o) (hs : s.Later s') :
    SlotMapped number s' slot o := by
  cases h with
  | absent => exact .absent
  | present h => exact .present (h.later hs)

theorem absent_of_none {slot : Slot} (h : SlotMapped number s slot none) : slot = .absent := by
  cases h with
  | absent => rfl

theorem present_of_some {slot : Slot} (h : SlotMapped number s slot (some m)) :
    ∃ t, slot = .present t ∧ Mapped number s t m := by
  cases h with
  | present h => exact ⟨_, rfl, h⟩

end SlotMapped

theorem CaptureMapped.later {c : Inheritance} {o : Option Map} (h : CaptureMapped number s c o)
    (hs : s.Later s') : CaptureMapped number s' c o := by
  unfold CaptureMapped at h ⊢
  revert h
  cases c.table <;> cases o <;> rintro (h | _)
  · exact .none
  · exact .some (h.later hs)

/-- Time goes by for all tables. -/
theorem Stored.later (h : Stored number s ms w) (hs : s.Later s') (hmaps : s'.maps = s.maps)
    (hcaptures : s'.captures = s.captures) : Stored number s' ms w := by
  have hthread (t : Thread) (maps : Kind → Option Map) (ht : ThreadMapped number s t maps) :
      ThreadMapped number s' t maps := fun kind => (ht kind).later hs
  refine ⟨hmaps ▸ hthread _ _ h.thread, List.Forall₂.imp hthread h.waiting, ?_⟩
  rw [hcaptures]
  exact h.captures.mono fun _ _ hc => hc.later hs

end PerThread.Reference
