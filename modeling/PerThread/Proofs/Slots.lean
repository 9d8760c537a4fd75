import Mathlib.Data.List.Perm.Basic
import PerThread.Proofs.Ring
import PerThread.Table.Basic

/-!
# Slots

The invariant of a ring of slots is `Led`: from the home of each entry up to its slot every slot is
occupied. So a search that starts at the home of an identity and meets a free slot has seen all that
could be there. Behind a free slot the ring may be cut open, and then every entry stands at or after its
home (`Led.rank`).

A write to one slot changes the entries by what stood there and what stands there now
(`entries_put`). `place` writes to the first free slot from home on, which keeps `Led`.
-/

namespace PerThread.Slots

variable {ν : Type} {s : Slots ν}

theorem lt_of_entryAt {i : Nat} {e : Entry ν} (h : s.entryAt i = some e) : i < s.size := by
  simp only [entryAt, Array.getD_eq_getD_getElem?] at h
  by_cases hi : i < s.size
  · exact hi
  · simp [Array.getElem?_eq_none (Nat.le_of_not_lt hi)] at h

theorem entryAt_eq_toList (i : Nat) : s.entryAt i = s.toList[i]?.getD none := by
  simp [entryAt, Array.getD_eq_getD_getElem?]

theorem mem_entries {e : Entry ν} : e ∈ s.entries ↔ ∃ i, s.entryAt i = some e := by
  simp only [entries, List.mem_filterMap, id_eq, exists_eq_right]
  rw [List.mem_iff_getElem?]
  constructor
  · rintro ⟨i, hi⟩
    exact ⟨i, by rw [entryAt_eq_toList, hi]; rfl⟩
  · rintro ⟨i, hi⟩
    have hlt : i < s.toList.length := by simpa using lt_of_entryAt hi
    rw [entryAt_eq_toList, List.getElem?_eq_getElem hlt, Option.getD_some] at hi
    exact ⟨i, by rw [List.getElem?_eq_getElem hlt, hi]⟩

/-- The entries before slot `i`, its own, and those behind it. -/
theorem entries_split {i : Nat} (hi : i < s.size) :
    s.entries = (s.toList.take i).filterMap id ++
      ((s.entryAt i).toList ++ (s.toList.drop (i + 1)).filterMap id) := by
  have hl : i < s.toList.length := by simpa using hi
  have hat : s.entryAt i = s.toList[i] := by rw [entryAt_eq_toList, List.getElem?_eq_getElem hl]; rfl
  have hself : s.toList = s.toList.take i ++ (s.entryAt i :: s.toList.drop (i + 1)) := by
    rw [hat, List.getElem_cons_drop, List.take_append_drop]
  conv => lhs; rw [entries, hself]
  rw [List.filterMap_append]
  cases s.entryAt i <;> rfl

/-- What a slot held before a write and what it holds afterwards make the difference. -/
theorem entries_put {i : Nat} (hi : i < s.size) (o : Option (Entry ν)) :
    ((s.put i o).entries ++ (s.entryAt i).toList).Perm (o.toList ++ s.entries) := by
  classical
  have htake : (s.put i o).toList.take i = s.toList.take i := by
    rw [put, Array.toList_setIfInBounds, List.take_set, List.set_eq_of_length_le (List.length_take_le _ _)]
  have hdrop : (s.put i o).toList.drop (i + 1) = s.toList.drop (i + 1) := by
    rw [put, Array.toList_setIfInBounds, List.drop_set]; simp
  have hat : (s.put i o).entryAt i = o := by rw [entryAt_put hi]; simp
  rw [entries_split (s := s) hi, entries_split (s := s.put i o) (by simpa using hi), htake, hdrop, hat]
  exact List.perm_iff_count.2 fun a => by simp only [List.count_append]; omega

/-- Taking the entry out of a slot. -/
theorem entries_put_none {i : Nat} {e : Entry ν} (h : s.entryAt i = some e) :
    s.entries.Perm (e :: (s.put i none).entries) := by
  have := entries_put (lt_of_entryAt h) none
  rw [h] at this
  exact (List.perm_append_comm.trans this).symm

/-- Filling a free slot. -/
theorem entries_put_some {i : Nat} (hi : i < s.size) (h : s.entryAt i = none) (e : Entry ν) :
    (s.put i (some e)).entries.Perm (e :: s.entries) := by
  have := entries_put hi (some e)
  rw [h] at this
  simpa using this

theorem entries_free (n : Nat) : (free n : Slots ν).entries = [] := by
  rw [List.eq_nil_iff_forall_not_mem]
  intro e he
  obtain ⟨i, hi⟩ := mem_entries.1 he
  simp [entryAt_free] at hi

/-- A free slot is room for one more entry. -/
theorem length_entries_lt {z : Nat} (hz : z < s.size) (h : s.entryAt z = none) :
    s.entries.length < s.size := by
  have hsplit := congrArg List.length (entries_split hz)
  have hfront := List.length_filterMap_le id (s.toList.take z)
  have hback := List.length_filterMap_le id (s.toList.drop (z + 1))
  simp only [h, List.length_append, List.length_take, List.length_drop, Array.length_toList,
    Option.toList_none, List.length_nil] at hsplit hfront hback
  omega

/-- Fewer entries than slots leave a slot free. -/
theorem exists_free (h : s.entries.length < s.size) : ∃ z < s.size, s.entryAt z = none := by
  have hmem : none ∈ s.toList := by
    by_contra hno
    have hall : s.toList.countP (fun o => (id o).isSome) = s.toList.length :=
      List.countP_eq_length.2 fun o ho => Option.isSome_iff_ne_none.2 fun hn => hno (hn ▸ ho)
    rw [← List.length_filterMap_eq_countP, Array.length_toList] at hall
    exact absurd hall (Nat.ne_of_lt h)
  obtain ⟨z, hz⟩ := List.mem_iff_getElem?.1 hmem
  have hlt : z < s.toList.length := by
    by_contra hge
    rw [List.getElem?_eq_none (Nat.le_of_not_lt hge)] at hz
    cases hz
  exact ⟨z, by simpa using hlt, by rw [entryAt_eq_toList, hz]; rfl⟩

/-- Where no identity occurs twice, the identity of an entry tells its slot. -/
theorem index_unique (h : (s.entries.map Entry.key).Nodup) {i j : Nat} {e f : Entry ν}
    (hi : s.entryAt i = some e) (hj : s.entryAt j = some f) (hkey : e.key = f.key) : i = j := by
  by_contra hne
  have hperm := (entries_put_none hi).map Entry.key
  have hnot := (List.nodup_cons.1 (hperm.nodup_iff.1 h)).1
  have hmem : f ∈ (s.put i none).entries :=
    mem_entries.2 ⟨j, by rw [entryAt_put (lt_of_entryAt hi), if_neg hne, hj]⟩
  exact hnot (hkey ▸ List.mem_map_of_mem hmem)

/-! ## The way from home -/

/-- Every slot from `a` up to slot `i` is occupied. -/
def Linked (s : Slots ν) (a i : Nat) : Prop :=
  ∀ x < s.size, Cyclic.dist s.size a x ≤ Cyclic.dist s.size a i → (s.entryAt x).isSome

/-- Every slot from the home of `hash` up to slot `i` is occupied. -/
def Leads (s : Slots ν) (hash : UInt32) (i : Nat) : Prop :=
  ∀ x < s.size, Cyclic.dist s.size (s.home hash) x ≤ Cyclic.dist s.size (s.home hash) i →
    (s.entryAt x).isSome

/-- The way from its home leads to every entry. -/
def Led (s : Slots ν) : Prop := ∀ i e, s.entryAt i = some e → s.Leads e.hash i

theorem home_lt (h : 0 < s.size) (hash : UInt32) : s.home hash < s.size := Nat.mod_lt _ h

theorem home_put (i : Nat) (o : Option (Entry ν)) (hash : UInt32) : (s.put i o).home hash = s.home hash := by
  simp [home]

theorem Leads.mono {u : Slots ν} {hash : UInt32} {i : Nat} (hsize : u.size = s.size)
    (hocc : ∀ x, (s.entryAt x).isSome → (u.entryAt x).isSome) (h : s.Leads hash i) : u.Leads hash i := by
  intro x hx hd
  have hhome : u.home hash = s.home hash := by simp [home, hsize]
  rw [hsize] at hx hd
  rw [hhome] at hd
  exact hocc x (h x hx hd)

/-- Cut open behind a free slot, the ring has the first of two linked slots before the second. -/
theorem linked_iff_rank {z a i : Nat} (hz : z < s.size) (hfree : s.entryAt z = none) (ha : a < s.size)
    (hi : i < s.size) :
    s.Linked a i ↔
      Cyclic.rank s.size z a ≤ Cyclic.rank s.size z i ∧
      ∀ x < s.size, Cyclic.rank s.size z a ≤ Cyclic.rank s.size z x →
        Cyclic.rank s.size z x ≤ Cyclic.rank s.size z i → (s.entryAt x).isSome := by
  have hdi := Cyclic.dist_eq_rank hz ha hi
  have hdz := Cyclic.dist_eq_rank hz ha hz
  have hend := Cyclic.rank_end hz
  have hhl := Cyclic.rank_lt z ha
  have hil := Cyclic.rank_lt z hi
  constructor
  · intro h
    have hle : Cyclic.rank s.size z a ≤ Cyclic.rank s.size z i := by
      by_contra hlt
      have := h z hz (by rw [hdi, hdz]; grind)
      simp [hfree] at this
    refine ⟨hle, fun x hx h1 h2 => h x hx ?_⟩
    have hdx := Cyclic.dist_eq_rank hz ha hx
    rw [hdi, hdx, if_pos hle, if_pos h1]
    omega
  · rintro ⟨hle, h⟩ x hx hd
    have hdx := Cyclic.dist_eq_rank hz ha hx
    rw [if_pos hle] at hdi
    by_cases h1 : Cyclic.rank s.size z a ≤ Cyclic.rank s.size z x
    · rw [if_pos h1] at hdx
      exact h x hx h1 (by omega)
    · rw [if_neg h1] at hdx
      omega

/-- What is linked to `i` is linked to all that `i` is linked to. -/
theorem Linked.trans {z a i j : Nat} (hz : z < s.size) (hfree : s.entryAt z = none) (ha : a < s.size)
    (hi : i < s.size) (hj : j < s.size) (hai : s.Linked a i) (hij : s.Linked i j) : s.Linked a j := by
  obtain ⟨hle, hway⟩ := (linked_iff_rank hz hfree ha hi).1 hai
  obtain ⟨hle', hway'⟩ := (linked_iff_rank hz hfree hi hj).1 hij
  refine (linked_iff_rank hz hfree ha hj).2 ⟨by omega, ?_⟩
  intro x hx h1 h2
  by_cases hxi : Cyclic.rank s.size z x ≤ Cyclic.rank s.size z i
  · exact hway x hx h1 hxi
  · exact hway' x hx (by omega) h2

/-- Cut open behind a free slot, the ring goes on behind every occupied slot. -/
theorem rank_next {z i : Nat} {e : Entry ν} (hz : z < s.size) (hfree : s.entryAt z = none)
    (he : s.entryAt i = some e) : Cyclic.rank s.size z (Cyclic.next s.size i) = Cyclic.rank s.size z i + 1 := by
  refine Cyclic.rank_next hz (lt_of_entryAt he) ?_
  rintro rfl
  simp [hfree] at he

theorem rank_prev {z i : Nat} (hz : z < s.size) (hfree : s.entryAt z = none) (hi : i < s.size)
    (hocc : (s.entryAt (Cyclic.prev s.size i)).isSome) :
    Cyclic.rank s.size z (Cyclic.prev s.size i) + 1 = Cyclic.rank s.size z i := by
  obtain ⟨e, he⟩ := Option.isSome_iff_exists.1 hocc
  have hnext := rank_next hz hfree he
  rw [Cyclic.next_prev hi] at hnext
  exact hnext.symm

/-- Cut open behind a free slot, the ring has every entry's home before the entry. -/
theorem leads_iff_rank {z i : Nat} (hz : z < s.size) (hfree : s.entryAt z = none) (hi : i < s.size)
    (hash : UInt32) :
    s.Leads hash i ↔
      Cyclic.rank s.size z (s.home hash) ≤ Cyclic.rank s.size z i ∧
      ∀ x < s.size, Cyclic.rank s.size z (s.home hash) ≤ Cyclic.rank s.size z x →
        Cyclic.rank s.size z x ≤ Cyclic.rank s.size z i → (s.entryAt x).isSome :=
  linked_iff_rank hz hfree (home_lt (by omega) hash) hi

/-! ## Placing an entry -/

/-- An entry is placed in the first free slot from its home on. -/
theorem place_first {z : Nat} (hz : z < s.size) (hfree : s.entryAt z = none) (e : Entry ν) :
    ∃ p, Cyclic.First s.size (fun x => (s.entryAt x).isNone) (s.home e.hash) p ∧
      s.place e = s.put p (some e) := by
  obtain ⟨p, hp, hf⟩ := Cyclic.seek_first (p := fun x => (s.entryAt x).isNone)
    (home_lt (by omega) e.hash) hz (by simp [hfree])
  exact ⟨p, hf, by rw [place, seek, hp]⟩

/-- A way is complete with its last slot. -/
theorem leads_of_before {hash : UInt32} {i : Nat} (hi : i < s.size) (hocc : (s.entryAt i).isSome)
    (hbefore : ∀ x < s.size, Cyclic.dist s.size (s.home hash) x < Cyclic.dist s.size (s.home hash) i →
      (s.entryAt x).isSome) : s.Leads hash i := by
  intro x hx hd
  rcases Nat.lt_or_eq_of_le hd with hlt | heq
  · exact hbefore x hx hlt
  · rw [Cyclic.dist_inj (home_lt (by omega) hash) hx hi heq]
    exact hocc

theorem entryAt_put_isSome {i x : Nat} (hi : i < s.size) (e : Entry ν) (h : (s.entryAt x).isSome) :
    ((s.put i (some e)).entryAt x).isSome := by
  rw [entryAt_put hi]
  split
  · rfl
  · exact h

theorem leads_of_first {p : Nat} {e : Entry ν}
    (hf : Cyclic.First s.size (fun x => (s.entryAt x).isNone) (s.home e.hash) p) :
    (s.put p (some e)).Leads e.hash p := by
  refine leads_of_before (by simpa using hf.lt) (by simp [entryAt_put hf.lt]) fun x hx hd => ?_
  rw [size_put, home_put] at hd
  rw [size_put] at hx
  exact entryAt_put_isSome hf.lt e (by simpa using hf.before x hx hd)

theorem Led.put {i : Nat} {e : Entry ν} (h : s.Led) (hi : i < s.size)
    (hlead : (s.put i (some e)).Leads e.hash i) : (s.put i (some e)).Led := by
  intro x f hx
  rw [entryAt_put hi] at hx
  by_cases hxi : i = x
  · rw [if_pos hxi] at hx
    cases hx
    exact hxi ▸ hlead
  · rw [if_neg hxi] at hx
    exact (h x f hx).mono (size_put ..) fun y hy => entryAt_put_isSome hi e hy

theorem Led.place {z : Nat} (h : s.Led) (hz : z < s.size) (hfree : s.entryAt z = none) (e : Entry ν) :
    (s.place e).Led := by
  obtain ⟨p, hf, heq⟩ := place_first hz hfree e
  rw [heq]
  exact h.put hf.lt (leads_of_first hf)

theorem led_free (n : Nat) : (free n : Slots ν).Led := by
  intro i e hi
  simp [entryAt_free] at hi

theorem entries_place {z : Nat} (hz : z < s.size) (hfree : s.entryAt z = none) (e : Entry ν) :
    (s.place e).entries.Perm (e :: s.entries) := by
  obtain ⟨p, hf, heq⟩ := place_first hz hfree e
  rw [heq]
  exact entries_put_some hf.lt (by simpa using hf.sat) e

/-- Entries that fit are all placed, and nothing else changes. -/
theorem foldl_place (es : List (Entry ν)) (h : s.Led) (hfit : s.entries.length + es.length < s.size) :
    (es.foldl Slots.place s).Led ∧ (es.foldl Slots.place s).entries.Perm (s.entries ++ es) := by
  induction es generalizing s with
  | nil => exact ⟨h, by simp⟩
  | cons e rest ih =>
    simp only [List.length_cons] at hfit
    obtain ⟨z, hz, hfree⟩ := exists_free (s := s) (by omega)
    have hperm := entries_place hz hfree e
    have hlen := hperm.length_eq
    simp only [List.length_cons] at hlen
    obtain ⟨hled, hrest⟩ := ih (h.place hz hfree e) (by rw [size_place]; omega)
    refine ⟨hled, hrest.trans ?_⟩
    exact (hperm.append_right rest).trans List.perm_middle.symm

end PerThread.Slots
