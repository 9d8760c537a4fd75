import PerThread.Proofs.Table.Writes
import PerThread.Table.Fork

/-!
# Tables built from entries

A table that grows, and a child's table, are built from nothing by placing a list of entries one after
another. Whatever the order, the outcome is sound if the identities differ and one slot remains free. For
a child's table the list is `heirs`: the live entries of the parent, in slot order, with the child's
values, those left out for which there is none.
-/

namespace PerThread

variable {ν : Type} {live : Liveness}

namespace Table

variable {t : Table ν}

theorem foldl_place_free (es : List (Entry ν)) {n : Nat} (h : es.length < n) :
    (es.foldl Slots.place (Slots.free n)).size = n ∧ (es.foldl Slots.place (Slots.free n)).Led ∧
      (es.foldl Slots.place (Slots.free n)).entries.Perm es := by
  have hsize : ∀ (es : List (Entry ν)) (s : Slots ν), (es.foldl Slots.place s).size = s.size := by
    intro es
    induction es with
    | nil => exact fun s => rfl
    | cons e rest ih => exact fun s => (ih (s.place e)).trans (Slots.size_place s e)
  obtain ⟨hled, hperm⟩ := Slots.foldl_place (s := Slots.free n) es (Slots.led_free n)
    (by simpa [Slots.entries_free] using h)
  rw [Slots.entries_free, List.nil_append] at hperm
  exact ⟨by simp [hsize], hled, hperm⟩

/-! ## Entries placed in an empty table -/

theorem entries_empty (n : Nat) : (empty n : Table ν).entries = [] := Slots.entries_free n

/-- The entries `hs` added one after another. -/
def endow (child : Table ν) (hs : List (Entry ν)) : Table ν :=
  { child with slots := hs.foldl Slots.place child.slots, len := child.len + hs.length }

/-- Entries of different identities make a sound table if there is a slot more than they need. -/
theorem sound_endow (hs : List (Entry ν)) {n : Nat} (hfit : hs.length < n) (hn : (hs.map Entry.key).Nodup) :
    ((empty n).endow hs).Sound ∧ ((empty n).endow hs).capacity = n ∧ ((empty n).endow hs).entries.Perm hs := by
  obtain ⟨hsize, hled, hperm⟩ := foldl_place_free hs hfit
  have hcap : ((empty n).endow hs).capacity = n := hsize
  have hent : ((empty n).endow hs).entries.Perm hs := hperm
  have hlen : ((empty n).endow hs).len = hs.length := Nat.zero_add _
  refine ⟨⟨?_, ?_, hled, (hent.map Entry.key).nodup_iff.2 hn⟩, hcap, hent⟩
  · rw [hlen, hent.length_eq]
  · rwa [hlen, hcap]

/-! ## Growing -/

theorem foldl_resettle (live : Liveness) (es : List (Entry ν)) (u : Table ν) :
    es.foldl (resettle live) u =
      { u.endow (es.filter fun e => !e.stale live) with
        reclaimed := u.reclaimed ++ (es.filter (·.stale live)).map Entry.value } := by
  induction es generalizing u with
  | nil => simp [endow]
  | cons e rest ih =>
    rw [List.foldl_cons, ih]
    unfold resettle endow
    cases hs : e.stale live
    · simp [hs, Nat.add_assoc, Nat.add_comm 1]
    · simp [hs]

theorem grow_eq (t : Table ν) (live : Liveness) :
    t.grow live =
      { (empty (2 * t.capacity)).endow (t.entries.filter fun e => !e.stale live) with
        reclaimed := t.reclaimed ++ (t.entries.filter (·.stale live)).map Entry.value } :=
  foldl_resettle live t.entries _

theorem threshold_grow (t : Table ν) (live : Liveness) :
    (t.grow live).threshold = thresholdFor (t.grow live).capacity := by
  rw [capacity_grow, grow_eq]
  rfl

/-- A table that doubles keeps its live entries. The stale ones leave it, in slot order. -/
theorem Sound.grow (h : t.Sound) (live : Liveness) :
    (t.grow live).Sound ∧ t.Turnover (t.entries.filter (·.stale live)) [] (t.grow live) := by
  have hlen := h.len_eq
  have hroom := h.room
  have hle := List.length_filter_le (fun e => !e.stale live) t.entries
  obtain ⟨hs, hcap, hent⟩ := sound_endow (t.entries.filter fun e => !e.stale live) (n := 2 * t.capacity)
    (by omega) (h.nodup.sublist (List.filter_sublist.map Entry.key))
  rw [grow_eq]
  refine ⟨⟨hs.len_eq, hs.room, hs.led, hs.nodup⟩, ?_, rfl⟩
  rw [List.append_nil]
  exact (List.filter_append_perm (·.stale live) t.entries).symm.trans (hent.symm.append_left _)

/-! ## A child's table -/

theorem endow_cons (child : Table ν) (e : Entry ν) (value : ν) (hs : List (Entry ν)) :
    (child.inherit e value).endow hs = child.endow ({ e with value } :: hs) := by
  simp only [endow, inherit, List.foldl_cons, List.length_cons]
  congr 1
  omega

/-- The entries that a child gets for `es`. -/
def heirs (live : Liveness) (childValue : Identity → ν → Option ν) (es : List (Entry ν)) :
    List (Entry ν) :=
  es.filterMap fun e =>
    if live e.key then (childValue e.key e.value).map fun value => { e with value } else none

theorem inheritAll_id (live : Liveness) (childValue : Identity → ν → Option ν) (child : Table ν)
    (es : List (Entry ν)) :
    Id.run (inheritAll (m := Id) (fun key => pure (live key)) (fun _ e => pure (childValue e.key e.value))
        child es) = child.endow (heirs live childValue es) := by
  induction es generalizing child with
  | nil => rfl
  | cons e rest ih =>
    simp only [inheritAll, pure_bind]
    cases hlive : live e.key with
    | false => simpa [heirs, hlive] using ih child
    | true =>
      cases hvalue : childValue e.key e.value with
      | none => simpa [heirs, hlive, hvalue] using ih child
      | some value =>
        have := ih (child.inherit e value)
        simp only [if_true, this, endow_cons]
        simp only [heirs, List.filterMap_cons, hlive, hvalue, if_true, Option.map_some]

theorem fork_eq_endow (t : Table ν) (live : Liveness) (childValue : Identity → ν → Option ν) :
    t.fork live childValue = (empty t.capacity).endow (heirs live childValue t.entries) :=
  inheritAll_id live childValue (empty t.capacity) t.entries

theorem fork_eq (t : Table ν) (live : Liveness) (childValue : Identity → ν → Option ν) :
    t.fork live childValue =
      ⟨(heirs live childValue t.entries).foldl Slots.place (Slots.free t.capacity),
        (heirs live childValue t.entries).length, thresholdFor t.capacity, []⟩ := by
  rw [fork_eq_endow]
  simp [endow, empty]

/-- Heirs keep the identities, and the hash codes with them. -/
theorem mem_heirs {childValue : Identity → ν → Option ν} {es : List (Entry ν)} {f : Entry ν} :
    f ∈ heirs live childValue es ↔
      ∃ e ∈ es, live e.key = true ∧ ∃ value, childValue e.key e.value = some value ∧ { e with value } = f := by
  unfold heirs
  rw [List.mem_filterMap]
  refine exists_congr fun e => and_congr_right fun _ => ?_
  cases live e.key <;> simp [Option.map_eq_some_iff]

theorem keys_heirs_sublist (live : Liveness) (childValue : Identity → ν → Option ν) (es : List (Entry ν)) :
    ((heirs live childValue es).map Entry.key).Sublist (es.map Entry.key) := by
  induction es with
  | nil => exact List.Sublist.refl _
  | cons e rest ih =>
    unfold heirs at ih ⊢
    rw [List.filterMap_cons]
    split
    · exact ih.cons e.key
    · rename_i f hf
      have hkey : f.key = e.key := by
        cases hlive : live e.key with
        | false => simp [hlive] at hf
        | true =>
          rw [hlive, if_pos rfl] at hf
          obtain ⟨value, -, rfl⟩ := Option.map_eq_some_iff.1 hf
          rfl
      rw [List.map_cons, List.map_cons, hkey]
      exact ih.cons_cons e.key

/-- Entries of some of the parent's identities make a sound table of the parent's size, in whatever order they
are added: fewer of them than before fit into as many slots. -/
theorem WellFormed.endow (h : t.WellFormed) {hs : List (Entry ν)}
    (hkeys : (hs.map Entry.key).Sublist (t.entries.map Entry.key)) (hhash : ∀ e ∈ hs, e.hash = e.key.hash) :
    ((empty t.capacity).endow hs).WellFormed ∧ ((empty t.capacity).endow hs).capacity = t.capacity ∧
      ((empty t.capacity).endow hs).entries.Perm hs := by
  have hle : hs.length ≤ t.entries.length := by simpa using hkeys.length_le
  have hlen := h.len_eq
  have hroom := h.room
  obtain ⟨hsound, hcap, hent⟩ := sound_endow hs (n := t.capacity) (by omega) (hkeys.nodup h.nodup)
  refine ⟨⟨hsound, ?_, ?_, ?_, ?_, ?_⟩, hcap, hent⟩
  · rw [hcap]
    exact h.power
  · rw [hcap]
    exact h.initial_le
  · rw [hcap]
    rfl
  · have hnew : ((empty t.capacity).endow hs).len = hs.length := Nat.zero_add _
    have hlt := h.len_lt
    rw [h.threshold_eq] at hlt
    rw [hnew]
    exact Nat.lt_of_le_of_lt (by omega) hlt
  · exact fun e he => hhash e (hent.mem_iff.1 he)

/-- A child's table holds the heirs of its parent's entries, in slots of their own. -/
theorem WellFormed.fork (h : t.WellFormed) (live : Liveness) (childValue : Identity → ν → Option ν) :
    (t.fork live childValue).WellFormed ∧ (t.fork live childValue).capacity = t.capacity ∧
      (t.fork live childValue).entries.Perm (heirs live childValue t.entries) := by
  rw [fork_eq_endow]
  refine h.endow (keys_heirs_sublist live childValue t.entries) fun f hf => ?_
  obtain ⟨e, he, -, value, -, rfl⟩ := mem_heirs.1 hf
  exact h.hash_eq e he

/-! ## The first table -/

theorem sound_empty {n : Nat} (h : 0 < n) : (empty n : Table ν).Sound := by
  refine ⟨by rw [entries_empty]; rfl, ?_, Slots.led_free n, by simp [entries_empty]⟩
  rw [capacity_empty]
  exact h

/-- The first store fills the home slot of an empty table. -/
theorem wellFormed_singleton (key : Identity) (value : ν) :
    (singleton key value).WellFormed ∧ (singleton key value).entries = [Entry.of key value] := by
  have heq : singleton key value = (empty initialCapacity).occupy
      ((empty initialCapacity : Table ν).slots.home key.hash) (.of key value) := rfl
  have hcap : (empty initialCapacity : Table ν).capacity = initialCapacity := capacity_empty _
  have hpos : 0 < initialCapacity := by decide
  have hempty : (empty initialCapacity : Table ν).Sound := sound_empty hpos
  have hhome := home_lt (t := (empty initialCapacity : Table ν)) (by rw [hcap]; exact hpos) key.hash
  have hfree : (empty initialCapacity : Table ν).entryAt
      ((empty initialCapacity : Table ν).slots.home key.hash) = none := Slots.entryAt_free _ _
  have hent : (singleton key value).entries = [Entry.of key value] := by
    have hperm := (turnover_occupy hhome hfree (Entry.of key value)).entries
    rw [entries_empty, ← heq] at hperm
    exact List.perm_singleton.1 hperm.symm
  have hsound : (singleton key value).Sound := by
    rw [heq]
    refine hempty.occupy hhome hfree (by rw [hcap]; exact (by decide : 1 < initialCapacity))
      (by simp [entries_empty]) ?_
    refine Slots.leads_of_before ?_ ?_ fun x _ hd => ?_
    · exact (Slots.size_put ..).symm ▸ hhome
    · rw [occupy, Slots.entryAt_put hhome]
      simp
    · simp only [occupy, Slots.home_put, Slots.size_put, Entry.of, Cyclic.dist_self] at hd
      omega
  refine ⟨{ hsound with
    power := ⟨4, by rw [capacity_singleton]; rfl⟩
    initial_le := Nat.le_of_eq (capacity_singleton key value).symm
    threshold_eq := by rw [capacity_singleton]; rfl
    len_lt := (by decide : 1 < thresholdFor initialCapacity)
    hash_eq := by simp [hent, Entry.of] }, hent⟩

/-- A copy differs in what it has given up only. -/
theorem WellFormed.copy (h : t.WellFormed) : t.copy.WellFormed :=
  ⟨⟨h.len_eq, h.room, h.led, h.nodup⟩, h.power, h.initial_le, h.threshold_eq, h.len_lt, h.hash_eq⟩

end Table

end PerThread
