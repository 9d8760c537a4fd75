import Mathlib.Data.Set.Function
import PerThread.Proofs.Table.Homeward

/-!
# Tables without displaced entries

An entry that stands in its home is found by the first look of a search. If the identities of a table have homes of
their own, and so have they in a table of twice the size, then every entry stands in its home, and neither cleaning, nor
storing one more such identity, nor growing displaces any: a new entry finds its home free, cleaning brings no entry
farther from home, and a table that grows places each entry in a slot that no other claims.
-/

namespace PerThread

variable {ν : Type} {live : Liveness}

/-- The identities of `keys` have homes of their own in a ring of `n` slots. -/
def Apart (n : Nat) (keys : Set Identity) : Prop := keys.InjOn fun key => key.hash.toNat % n

namespace Slots

variable {s : Slots ν} {e : Entry ν}

/-- Every entry stands in its home. -/
def Homed (s : Slots ν) : Prop := ∀ i e, s.entryAt i = some e → i = s.home e.hash

theorem homed_free (n : Nat) : (free n : Slots ν).Homed := by
  intro i e hi
  simp [entryAt_free] at hi

theorem home_free (n : Nat) (hash : UInt32) : (free n : Slots ν).home hash = hash.toNat % n := by
  simp [home]

/-- An entry whose home is free is placed there. -/
theorem place_home (hsize : 0 < s.size) (hfree : s.entryAt (s.home e.hash) = none) :
    s.place e = s.put (s.home e.hash) (some e) := by
  have hhome := home_lt hsize e.hash
  obtain ⟨p, hf, hplace⟩ := place_first hhome hfree e
  have hle := hf.le hhome (by simp [hfree])
  rw [Cyclic.dist_self, Nat.le_zero, Cyclic.dist_eq_zero_iff hhome] at hle
  rw [hplace, hle]

theorem Homed.put_home (h : s.Homed) (hsize : 0 < s.size) (e : Entry ν) :
    (s.put (s.home e.hash) (some e)).Homed := by
  intro i f hi
  rw [entryAt_put (home_lt hsize e.hash)] at hi
  rw [home_put]
  by_cases hhere : s.home e.hash = i
  · rw [if_pos hhere] at hi
    cases hi
    exact hhere.symm
  · rw [if_neg hhere] at hi
    exact h i f hi

/-- Entries that have free homes of their own are all placed there. -/
theorem Homed.foldl_place (es : List (Entry ν)) (h : s.Homed) (hsize : 0 < s.size)
    (hfree : ∀ e ∈ es, s.entryAt (s.home e.hash) = none) (hown : (es.map fun e => s.home e.hash).Nodup) :
    (es.foldl Slots.place s).Homed := by
  induction es generalizing s with
  | nil => exact h
  | cons e rest ih =>
    obtain ⟨hnew, hrest⟩ := List.nodup_cons.1 hown
    have hplace := place_home hsize (hfree e List.mem_cons_self)
    rw [List.foldl_cons, hplace]
    refine ih (h.put_home hsize e) (by rwa [size_put]) ?_ ?_
    · intro f hf
      have hne : s.home e.hash ≠ s.home f.hash := fun heq => hnew (List.mem_map.2 ⟨f, hf, heq.symm⟩)
      rw [home_put, entryAt_put (home_lt hsize e.hash), if_neg hne]
      exact hfree f (List.mem_cons_of_mem e hf)
    · simpa only [home_put] using hrest

end Slots

namespace Table

variable {t u w : Table ν} {keys : Set Identity} {key : Identity} {value : ν} {i : Nat} {e : Entry ν}
  {out : List (Entry ν)}

/-! ## What keeps entries at home -/

/-- Cleaning brings no entry away from its home. -/
theorem Shed.homed (hs : t.Shed live out u) (h : t.slots.Homed) : u.slots.Homed := by
  intro j e hj
  have hhome := home_congr hs.capacity_eq e.hash
  obtain ⟨i, hi, hle, -⟩ := hs.moved j e hj
  have hcap : 0 < t.capacity := Nat.zero_lt_of_lt (lt_of_entryAt hi)
  rw [h i e hi, Cyclic.dist_self, Nat.le_zero, Cyclic.dist_eq_zero_iff (home_lt hcap e.hash)] at hle
  rw [hhome, hle]

/-- The slot in which an insertion puts its entry is the home of the entry, if no other identity has the same. -/
theorem Wrote.eq_home (hw : Wrote live t key value i w) (ht : t.WellFormed) (h : t.slots.Homed)
    (hin : ∀ e ∈ t.entries, e.key ∈ keys) (hkey : key ∈ keys) (hapart : Apart t.capacity keys) :
    i = t.slots.home key.hash := by
  have hhome := ht.toSound.home_lt key.hash
  by_contra hne
  -- the search has come past the home, where another identity stands that has the same home
  have hpast : Cyclic.dist t.capacity (t.slots.home key.hash) (t.slots.home key.hash) <
      Cyclic.dist t.capacity (t.slots.home key.hash) i := by
    rw [Cyclic.dist_self, Nat.pos_iff_ne_zero, Ne, Cyclic.dist_eq_zero_iff hhome]
    exact fun heq => hne heq.symm
  obtain ⟨e, he, -, hother⟩ := hw.way _ hhome hpast
  have hmem := mem_entries_of_entryAt he
  have hsame := h _ e he
  rw [ht.hash_eq e hmem] at hsame
  exact hother (hapart (hin e hmem) hkey hsame.symm)

theorem Wrote.homed (hw : Wrote live t key value i w) (ht : t.WellFormed) (h : t.slots.Homed)
    (hlive : ∀ e ∈ t.entries, e.stale live = false) (hin : ∀ e ∈ t.entries, e.key ∈ keys) (hkey : key ∈ keys)
    (hapart : Apart t.capacity keys) : w.slots.Homed := by
  intro x f hx
  rw [home_congr hw.capacity_eq]
  by_cases hfk : f.key = key
  · have hxi : x = i := hw.sound.index_unique hx hw.here hfk
    have hhash : f.hash = key.hash := by rw [hw.hash_eq ht f (mem_entries_of_entryAt hx), hfk]
    rw [hxi, hhash]
    exact hw.eq_home ht h hin hkey hapart
  · obtain ⟨gone, hto, -⟩ := hw.turnover
    have hold : f ∈ t.entries := by
      refine (hto.mem_of_mem (mem_entries_of_entryAt hx)).resolve_right fun hnew => hfk ?_
      rw [List.mem_singleton.1 hnew]
      rfl
    obtain ⟨y, hy⟩ := mem_entries.1 hold
    have hxy : x = y := hw.sound.index_unique hx (hw.stay y f hy (hlive f hold) hfk) rfl
    rw [hxy]
    exact h y f hy

/-- A table that grows brings every entry home, if there are homes enough for all. -/
theorem Sound.homed_grow (h : t.Sound) (live : Liveness) (hhash : ∀ e ∈ t.entries, e.hash = e.key.hash)
    (hin : ∀ e ∈ t.entries, e.key ∈ keys) (hapart : Apart (2 * t.capacity) keys) : (t.grow live).slots.Homed := by
  have hroom := h.room
  rw [grow_eq]
  refine (Slots.homed_free (2 * t.capacity)).foldl_place _ ?_ (fun e _ => Slots.entryAt_free _ _) ?_
  · rw [Slots.size_free]
    omega
  · refine List.Nodup.map_on (fun e he f hf heq => ?_) (h.nodup.of_map.filter _)
    have he := List.mem_of_mem_filter he
    have hf := List.mem_of_mem_filter hf
    rw [Slots.home_free, Slots.home_free, hhash e he, hhash f hf] at heq
    exact List.inj_on_of_nodup_map h.nodup he hf (hapart (hin e he) (hin f hf) heq)

/-- Storing a value displaces no entry as long as all identities have homes of their own, in the table as it is and in
one of twice its size. -/
theorem WellFormed.homed_insert (ht : t.WellFormed) (h : t.slots.Homed) (hlive : live key = true)
    (hfresh : ∀ e ∈ t.entries, e.stale live = false) (hin : ∀ e ∈ t.entries, e.key ∈ keys) (hkey : key ∈ keys)
    (hapart : Apart t.capacity keys) (hapart' : Apart (2 * t.capacity) keys) (value : ν) :
    (t.insert live key value).1.slots.Homed := by
  obtain ⟨i, w, out, v, hw, hc, hsame | hgrown⟩ := ht.insert_wrote hlive value
  · rw [hsame]
    exact hc.homed (hw.homed ht h hfresh hin hkey hapart)
  · have hcap : v.capacity = t.capacity := hc.capacity_eq.trans hw.capacity_eq
    obtain ⟨gone, hto, -⟩ := hw.turnover
    rw [hgrown]
    refine hc.sound.homed_grow live (fun e he => hw.hash_eq ht e (hc.mem_of_mem he)) (fun e he => ?_) (by rwa [hcap])
    rcases hto.mem_of_mem (hc.mem_of_mem he) with hold | hnew
    · exact hin e hold
    · rw [List.mem_singleton.1 hnew]
      exact hkey

/-! ## The first look -/

/-- A search for an identity whose entry stands in its home ends there at once. -/
theorem search_home (he : t.entryAt (t.slots.home key.hash) = some e) (hkey : e.key = key) (hlive : live key = true) :
    search live key 1 (t.slots.home key.hash) t = some (some (t.slots.home key.hash), t) := by
  have hb : e.belongs live key = true := Entry.belongs_iff.2 ⟨hkey, by simp [Entry.stale_eq hkey, hlive]⟩
  simp [search, he, hb]

/-- So does a lookup, and leaves the table as it is. -/
theorem WellFormed.get?_home (ht : t.WellFormed) (he : t.entryAt (t.slots.home key.hash) = some e) (hkey : e.key = key)
    (hlive : live key = true) : t.get? live key = (some e.value, t) := by
  have hhash : e.hash = key.hash := by rw [ht.hash_eq e (mem_entries_of_entryAt he), hkey]
  have hf := ht.toSound.found_of_entryAt hlive he hkey hhash fun x _ hd => by simp [Cyclic.dist_self] at hd
  rw [ht.get?_of_found hlive hf, valueOf?_eq_some ht.nodup (mem_entries_of_entryAt he) hkey]

end Table

end PerThread
