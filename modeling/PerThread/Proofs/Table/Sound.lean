import PerThread.Proofs.Slots
import PerThread.Table.Insert

/-!
# The invariant of a table, and the traffic of its entries

`Sound` is what every operation needs of a table in order to work, and what it restores: the way from its
home leads to every entry, some slot is free, the length is right, no identity occurs twice. `WellFormed`
adds what holds between operations: the geometry, and the hash codes.

`Turnover t out inn u` is the traffic between two states of a table: the entries `out` left, their values
being given up in this order, and the entries `inn` came. `Shed` is the traffic of cleaning: nothing
comes, and what stays is moved towards its home at most.
-/

namespace PerThread.Table

open Cyclic (rank)

variable {ν : Type} {live : Liveness} {t u v : Table ν}

/-- What every operation needs and restores. -/
structure Sound (t : Table ν) : Prop where
  len_eq : t.len = t.entries.length
  room : t.len < t.capacity
  led : t.slots.Led
  nodup : (t.entries.map Entry.key).Nodup

/-- The representation invariant. -/
structure WellFormed (t : Table ν) : Prop extends Sound t where
  power : t.capacity.isPowerOfTwo
  initial_le : initialCapacity ≤ t.capacity
  threshold_eq : t.threshold = thresholdFor t.capacity
  len_lt : t.len < t.threshold
  hash_eq : ∀ e ∈ t.entries, e.hash = e.key.hash

/-! ## Reading a table -/

theorem lt_of_entryAt {i : Nat} {e : Entry ν} (h : t.entryAt i = some e) : i < t.capacity :=
  Slots.lt_of_entryAt h

theorem mem_entries {e : Entry ν} : e ∈ t.entries ↔ ∃ i, t.entryAt i = some e := Slots.mem_entries

theorem mem_entries_of_entryAt {i : Nat} {e : Entry ν} (h : t.entryAt i = some e) : e ∈ t.entries :=
  mem_entries.2 ⟨i, h⟩

theorem home_lt (h : 0 < t.capacity) (hash : UInt32) : t.slots.home hash < t.capacity :=
  Slots.home_lt h hash

theorem home_congr (h : u.capacity = t.capacity) (hash : UInt32) :
    u.slots.home hash = t.slots.home hash := by
  unfold capacity at h
  simp only [Slots.home, h]

theorem next_lt {i : Nat} (h : i < t.capacity) : t.next i < t.capacity := Cyclic.next_lt (by omega)

theorem Sound.exists_free (h : t.Sound) : ∃ z < t.capacity, t.entryAt z = none :=
  Slots.exists_free (h.len_eq ▸ h.room)

theorem Sound.index_unique (h : t.Sound) {i j : Nat} {e f : Entry ν} (hi : t.entryAt i = some e)
    (hj : t.entryAt j = some f) (hkey : e.key = f.key) : i = j :=
  Slots.index_unique h.nodup hi hj hkey

/-- Cut open behind a free slot, a table has every home before its entry, and no gap between them. -/
theorem leads_iff_rank {z i : Nat} (hz : z < t.capacity) (hfree : t.entryAt z = none)
    (hi : i < t.capacity) (hash : UInt32) :
    t.slots.Leads hash i ↔
      rank t.capacity z (t.slots.home hash) ≤ rank t.capacity z i ∧
      ∀ x < t.capacity, rank t.capacity z (t.slots.home hash) ≤ rank t.capacity z x →
        rank t.capacity z x ≤ rank t.capacity z i → (t.entryAt x).isSome :=
  Slots.leads_iff_rank hz hfree hi hash

theorem Sound.led_rank (h : t.Sound) {z : Nat} (hz : z < t.capacity) (hfree : t.entryAt z = none)
    {i : Nat} {e : Entry ν} (he : t.entryAt i = some e) :
    rank t.capacity z (t.slots.home e.hash) ≤ rank t.capacity z i ∧
    ∀ x < t.capacity, rank t.capacity z (t.slots.home e.hash) ≤ rank t.capacity z x →
      rank t.capacity z x ≤ rank t.capacity z i → (t.entryAt x).isSome :=
  (leads_iff_rank hz hfree (lt_of_entryAt he) e.hash).1 (h.led i e he)

/-! ## Traffic -/

/-- The entries `out` left, in this order, and the entries `inn` came. -/
structure Turnover (t : Table ν) (out inn : List (Entry ν)) (u : Table ν) : Prop where
  entries : (t.entries ++ inn).Perm (out ++ u.entries)
  reclaimed : u.reclaimed = t.reclaimed ++ out.map Entry.value

namespace Turnover

variable {out inn out₁ inn₁ out₂ inn₂ : List (Entry ν)}

theorem refl (t : Table ν) : t.Turnover [] [] t := ⟨by simp, by simp⟩

theorem trans (h₁ : t.Turnover out₁ inn₁ u) (h₂ : u.Turnover out₂ inn₂ v) :
    t.Turnover (out₁ ++ out₂) (inn₁ ++ inn₂) v := by
  classical
  refine ⟨List.perm_iff_count.2 fun a => ?_, ?_⟩
  · have c₁ := h₁.entries.count_eq a
    have c₂ := h₂.entries.count_eq a
    simp only [List.count_append] at c₁ c₂ ⊢
    omega
  · rw [h₂.reclaimed, h₁.reclaimed, List.map_append, List.append_assoc]

theorem mem_of_mem (h : t.Turnover out inn u) {e : Entry ν} (he : e ∈ u.entries) :
    e ∈ t.entries ∨ e ∈ inn :=
  List.mem_append.1 (h.entries.mem_iff.2 (List.mem_append_right out he))

theorem mem_or_mem (h : t.Turnover out inn u) {e : Entry ν} (he : e ∈ t.entries) :
    e ∈ out ∨ e ∈ u.entries :=
  List.mem_append.1 (h.entries.mem_iff.1 (List.mem_append_left inn he))

/-- If nothing left and nothing came, then the entries are the same. -/
theorem mem_iff (h : t.Turnover [] [] u) {e : Entry ν} : e ∈ u.entries ↔ e ∈ t.entries := by
  simpa using (h.entries.mem_iff (a := e)).symm

theorem length_eq (h : t.Turnover out inn u) :
    t.entries.length + inn.length = out.length + u.entries.length := by
  simpa using h.entries.length_eq

/-- If the old and the new identities are all different, so are those that are there afterwards. -/
theorem nodup (h : t.Turnover out inn u) (hn : ((t.entries ++ inn).map Entry.key).Nodup) :
    (u.entries.map Entry.key).Nodup := by
  have hperm := h.entries.map Entry.key
  simp only [List.map_append] at hperm hn
  exact (List.nodup_append.1 (hperm.nodup_iff.1 hn)).2.1

end Turnover

/-- The entries `out` left, in this order. The others stay where they are or move towards their homes;
stale ones do not move. -/
structure Shed (live : Liveness) (t : Table ν) (out : List (Entry ν)) (u : Table ν) : Prop where
  capacity_eq : u.capacity = t.capacity
  threshold_eq : u.threshold = t.threshold
  turnover : t.Turnover out [] u
  moved : ∀ j e, u.entryAt j = some e → ∃ i, t.entryAt i = some e ∧
    Cyclic.dist t.capacity (t.slots.home e.hash) j ≤ Cyclic.dist t.capacity (t.slots.home e.hash) i ∧
    (e.stale live = true → i = j)

namespace Shed

variable {out out₁ out₂ : List (Entry ν)}

theorem refl (live : Liveness) (t : Table ν) : t.Shed live [] t :=
  ⟨rfl, rfl, .refl t, fun j _ h => ⟨j, h, Nat.le_refl _, fun _ => rfl⟩⟩

theorem trans (h₁ : t.Shed live out₁ u) (h₂ : u.Shed live out₂ v) : t.Shed live (out₁ ++ out₂) v := by
  refine ⟨h₂.capacity_eq.trans h₁.capacity_eq, h₂.threshold_eq.trans h₁.threshold_eq,
    by simpa using h₁.turnover.trans h₂.turnover, fun j e hj => ?_⟩
  obtain ⟨k, hk, hkj, hstay⟩ := h₂.moved j e hj
  obtain ⟨i, hi, hik, hstay'⟩ := h₁.moved k e hk
  rw [h₁.capacity_eq, home_congr h₁.capacity_eq] at hkj
  exact ⟨i, hi, Nat.le_trans hkj hik, fun hs => (hstay' hs).trans (hstay hs)⟩

theorem mem_of_mem (h : t.Shed live out u) {e : Entry ν} (he : e ∈ u.entries) : e ∈ t.entries := by
  simpa using h.turnover.mem_of_mem he

theorem nodup (h : t.Shed live out u) (hn : (t.entries.map Entry.key).Nodup) :
    (u.entries.map Entry.key).Nodup :=
  h.turnover.nodup (by simpa using hn)

theorem length_eq (h : t.Shed live out u) : t.entries.length = out.length + u.entries.length := by
  simpa using h.turnover.length_eq

/-- What leaves and what stays make up the stale entries. -/
theorem staleCount_eq (h : t.Shed live out u) :
    t.staleCount live = out.countP (·.stale live) + u.staleCount live := by
  have := h.turnover.entries.countP_eq (·.stale live)
  simpa [staleCount] using this

end Shed

/-- A sound table that came about by cleaning is well-formed like the one before. -/
theorem WellFormed.of_shed {out : List (Entry ν)} (h : t.WellFormed) (hshed : t.Shed live out u)
    (hu : u.Sound) : u.WellFormed := by
  have hlen := hshed.length_eq
  have ht := h.len_eq
  have hlt := h.len_lt
  have hu' := hu.len_eq
  refine { hu with
    power := by rw [hshed.capacity_eq]; exact h.power
    initial_le := by rw [hshed.capacity_eq]; exact h.initial_le
    threshold_eq := by rw [hshed.capacity_eq, hshed.threshold_eq]; exact h.threshold_eq
    len_lt := by rw [hshed.threshold_eq]; omega
    hash_eq := fun e he => h.hash_eq e (hshed.mem_of_mem he) }

end PerThread.Table
