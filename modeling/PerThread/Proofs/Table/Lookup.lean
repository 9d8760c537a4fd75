import Mathlib.Data.List.Nodup
import PerThread.Proofs.Table.Cleaning

/-!
# Searching

`valueOf?` is a table seen as a map: what it holds for an identity, whatever the slot. A search for a
live identity begins at its home; `Passed` says that it found entries of other live identities only, up
to the slot at hand. If that slot is free the table does not hold the identity (`Sound.absent`).

A lookup expunges the stale entries it meets, which moves entries behind the slot at hand and none before
it. It ends because every look at a slot brings it nearer to a free slot or removes a stale entry.
-/

namespace PerThread

variable {ν : Type} {live : Liveness}

namespace Entry

theorem belongs_iff {key : Identity} {e : Entry ν} :
    e.belongs live key = true ↔ e.key = key ∧ e.stale live = false := by
  simp [belongs, stale]

theorem stale_eq {key : Identity} {e : Entry ν} (h : e.key = key) : e.stale live = !live key := by
  simp [stale, h]

theorem with_value {key : Identity} {e : Entry ν} (hhash : e.hash = e.key.hash) (hkey : e.key = key)
    (value : ν) : { e with value } = Entry.of key value := by
  subst hkey
  rw [Entry.of, ← hhash]

end Entry

namespace Table

open Cyclic (rank)

variable {t u v : Table ν} {key : Identity}

/-- What the table holds for `key`. -/
def valueOf? (t : Table ν) (key : Identity) : Option ν :=
  (t.entries.find? (·.key == key)).map Entry.value

/-! ## A table as a map -/

theorem valueOf?_eq_none_iff : t.valueOf? key = none ↔ ∀ e ∈ t.entries, e.key ≠ key := by
  simp [valueOf?, List.find?_eq_none]

/-- No identity occurs twice, so any entry of `key` tells its value. -/
theorem valueOf?_eq_some (hn : (t.entries.map Entry.key).Nodup) {e : Entry ν} (he : e ∈ t.entries)
    (hkey : e.key = key) : t.valueOf? key = some e.value := by
  have hany : ∃ f ∈ t.entries, (f.key == key) = true := ⟨e, he, by simp [hkey]⟩
  obtain ⟨f, hf⟩ := Option.isSome_iff_exists.1 (List.find?_isSome.2 hany)
  have hfk : f.key = key := by simpa using List.find?_some hf
  have hfe : f = e := List.inj_on_of_nodup_map hn (List.mem_of_find?_eq_some hf) he (by rw [hfk, hkey])
  rw [valueOf?, hf, hfe]
  rfl

theorem valueOf?_eq_some_iff (hn : (t.entries.map Entry.key).Nodup) {x : ν} :
    t.valueOf? key = some x ↔ ∃ e ∈ t.entries, e.key = key ∧ e.value = x := by
  constructor
  · intro h
    obtain ⟨e, he, hx⟩ := Option.map_eq_some_iff.1 h
    exact ⟨e, List.mem_of_find?_eq_some he, by simpa using List.find?_some he, hx⟩
  · rintro ⟨e, he, hkey, rfl⟩
    exact valueOf?_eq_some hn he hkey

theorem mem_values_of_valueOf? {x : ν} (h : t.valueOf? key = some x) : x ∈ t.values := by
  obtain ⟨e, he, rfl⟩ := Option.map_eq_some_iff.1 h
  exact List.mem_map_of_mem (List.mem_of_find?_eq_some he)

/-- Tables that agree on the entries of `key` agree on its value. -/
theorem valueOf?_congr (ht : (t.entries.map Entry.key).Nodup) (hu : (u.entries.map Entry.key).Nodup)
    (h : ∀ e : Entry ν, e.key = key → (e ∈ u.entries ↔ e ∈ t.entries)) :
    u.valueOf? key = t.valueOf? key := by
  refine Option.ext fun x => ?_
  rw [valueOf?_eq_some_iff hu, valueOf?_eq_some_iff ht]
  constructor
  · rintro ⟨e, he, hkey, hx⟩
    exact ⟨e, (h e hkey).1 he, hkey, hx⟩
  · rintro ⟨e, he, hkey, hx⟩
    exact ⟨e, (h e hkey).2 he, hkey, hx⟩

/-- Cleaning does not touch the map of the live identities. -/
theorem Cleaned.valueOf? {out : List (Entry ν)} (h : t.Cleaned live out u) (ht : t.Sound)
    (hlive : live key = true) : u.valueOf? key = t.valueOf? key :=
  valueOf?_congr ht.nodup h.sound.nodup fun e hkey => h.mem_iff (by simp [Entry.stale_eq hkey, hlive])

/-! ## The way of a search -/

/-- From the home of `key` up to slot `i` there are entries of other live identities. -/
def Passed (live : Liveness) (t : Table ν) (key : Identity) (i : Nat) : Prop :=
  ∀ x < t.capacity, Cyclic.dist t.capacity (t.slots.home key.hash) x <
      Cyclic.dist t.capacity (t.slots.home key.hash) i →
    ∃ e, t.entryAt x = some e ∧ e.stale live = false ∧ e.key ≠ key

theorem passed_home (live : Liveness) (t : Table ν) (key : Identity) :
    t.Passed live key (t.slots.home key.hash) := by
  intro x _ hd
  simp [Cyclic.dist_self] at hd

theorem Passed.next {i : Nat} (h : t.Passed live key i) (hi : i < t.capacity) {e : Entry ν}
    (he : t.entryAt i = some e) (hs : e.stale live = false) (hkey : e.key ≠ key) :
    t.Passed live key (t.next i) := by
  have hhome := home_lt (Nat.zero_lt_of_lt hi) key.hash
  intro x hx hd
  have hstep : Cyclic.dist t.capacity (t.slots.home key.hash) (t.next i) ≤
      Cyclic.dist t.capacity (t.slots.home key.hash) i + 1 := by
    unfold Table.next Cyclic.dist Cyclic.next
    grind
  by_cases hxi : Cyclic.dist t.capacity (t.slots.home key.hash) x =
      Cyclic.dist t.capacity (t.slots.home key.hash) i
  · rw [Cyclic.dist_inj hhome hx hi hxi]
    exact ⟨e, he, hs, hkey⟩
  · exact h x hx (by omega)

/-- If a way leads from home up to a free slot without meeting `key`, there is no entry of `key`. -/
theorem Sound.absent (h : t.Sound) (hhash : ∀ e ∈ t.entries, e.hash = e.key.hash) {i : Nat}
    (hi : i < t.capacity) (hfree : t.entryAt i = none)
    (hway : ∀ x < t.capacity, Cyclic.dist t.capacity (t.slots.home key.hash) x <
      Cyclic.dist t.capacity (t.slots.home key.hash) i → ∀ e, t.entryAt x = some e → e.key ≠ key) :
    ∀ e ∈ t.entries, e.key ≠ key := by
  intro e he hkey
  obtain ⟨x, hx⟩ := mem_entries.1 he
  have hlead := h.led x e hx
  rw [hhash e he, hkey] at hlead
  have hxi : Cyclic.dist t.capacity (t.slots.home key.hash) x <
      Cyclic.dist t.capacity (t.slots.home key.hash) i := by
    by_contra hge
    have := hlead i hi (Nat.le_of_not_lt hge)
    rw [show t.slots.entryAt i = none from hfree] at this
    cases this
  exact hway x (lt_of_entryAt hx) hxi e hx hkey

/-- A search has not come past a free slot. -/
theorem Passed.rank_le {i z : Nat} (h : t.Passed live key i) (hi : i < t.capacity)
    (hz : z < t.capacity) (hfree : t.entryAt z = none) :
    rank t.capacity z (t.slots.home key.hash) ≤ rank t.capacity z i := by
  have hhome := home_lt (Nat.zero_lt_of_lt hi) key.hash
  by_contra hlt
  have hdi := Cyclic.dist_eq_rank hz hhome hi
  have hdz := Cyclic.dist_eq_rank hz hhome hz
  have hend := Cyclic.rank_end hz
  have hhn := Cyclic.rank_lt z hhome
  obtain ⟨e, he, -⟩ := h z hz (by grind)
  simp [hfree] at he

/-- Expunging the slot at hand leaves the way that was passed as it is. -/
theorem Passed.expunge {i r : Nat} {e : Entry ν} (h : t.Passed live key i) (ht : t.Sound)
    (he : t.entryAt i = some e) (hexp : Expunged live t i e r u) : u.Passed live key i := by
  obtain ⟨z, hz, hfree⟩ := ht.exists_free
  have hi := lt_of_entryAt he
  have hcap := hexp.shed.capacity_eq
  have hhome := home_lt (Nat.zero_lt_of_lt hi) key.hash
  intro x hx hd
  rw [hcap, home_congr hcap] at hd
  rw [hcap] at hx
  obtain ⟨-, hlt⟩ := (Cyclic.dist_lt_iff_rank hz hhome hi hx (h.rank_le hi hz hfree)).1 hd
  rw [hexp.frame_rank he hz hfree hx hlt]
  exact h x hx hd

/-- Where a search ended: at a free slot, or at the entry of `key`. -/
structure Found (live : Liveness) (u : Table ν) (key : Identity) (j : Nat) (found : Option Nat) : Prop where
  lt : j < u.capacity
  passed : u.Passed live key j
  here : found = none ∧ u.entryAt j = none ∨
    found = some j ∧ ∃ e, u.entryAt j = some e ∧ e.belongs live key = true

theorem Sound.search (fuel : Nat) {z i : Nat} (h : t.Sound) (hz : z < t.capacity)
    (hfree : t.entryAt z = none) (hi : i < t.capacity) (hpassed : t.Passed live key i)
    (hfuel : t.capacity + t.staleCount live ≤ rank t.capacity z i + fuel) :
    ∃ j found out u, Table.search live key fuel i t = some (found, u) ∧ t.Cleaned live out u ∧
      Found live u key j found := by
  induction fuel generalizing i t with
  | zero =>
    have := Cyclic.rank_lt z hi
    omega
  | succ fuel ih =>
    unfold Table.search
    cases he : t.entryAt i with
    | none => exact ⟨i, none, [], t, rfl, .refl live h, hi, hpassed, Or.inl ⟨rfl, he⟩⟩
    | some e =>
      dsimp only
      split
      · rename_i hb
        exact ⟨i, some i, [], t, rfl, .refl live h, hi, hpassed, Or.inr ⟨rfl, e, he, hb⟩⟩
      · rename_i hb
        split
        · rename_i hs
          have hexp := h.expunge live he
          obtain ⟨out₁, hc⟩ := h.expunge_stale he hs
          have hcap := hc.capacity_eq
          have hcount := hc.staleCount_eq
          simp only [List.length_cons] at hcount
          obtain ⟨j, found, out₂, u, hsearch, hc', hfound⟩ := ih hc.sound (by rwa [hcap])
            (hexp.keeps_free hi hz hfree) (by rwa [hcap]) (hpassed.expunge h he hexp)
            (by rw [hcap]; omega)
          exact ⟨j, found, e :: out₁ ++ out₂, u, hsearch, hc.trans hc', hfound⟩
        · rename_i hs
          have hlive : e.stale live = false := by simpa using hs
          have hkey : e.key ≠ key := fun hkey => hb (Entry.belongs_iff.2 ⟨hkey, hlive⟩)
          have hrank : rank t.capacity z (t.next i) = rank t.capacity z i + 1 := Slots.rank_next hz hfree he
          exact ih h hz hfree (next_lt hi) (hpassed.next hi he hlive hkey) (by omega)

/-- A lookup drops stale entries at most. It finds what the table holds, and leaves a way without stale
entries behind. -/
theorem Sound.get? (h : t.Sound) (hash_eq : ∀ e ∈ t.entries, e.hash = e.key.hash) (hlive : live key = true) :
    ∃ j found out, t.Cleaned live out (t.get? live key).2 ∧
      Found live (t.get? live key).2 key j found ∧ (t.get? live key).1 = t.valueOf? key := by
  obtain ⟨z, hz, hfree⟩ := h.exists_free
  obtain ⟨j, found, out, u, hsearch, hc, hf⟩ := h.search (t.capacity + t.staleCount live) hz hfree
    (home_lt (Nat.zero_lt_of_lt hz) key.hash) (passed_home live t key) (by omega)
  have heq : t.get? live key = (found.bind fun i => (u.entryAt i).map Entry.value, u) := by
    unfold Table.get? searchLimit
    rw [hsearch]
    rfl
  have hhash : ∀ e ∈ u.entries, e.hash = e.key.hash := fun e he => hash_eq e (hc.mem_of_mem he)
  rw [heq]
  refine ⟨j, found, out, hc, hf, ?_⟩
  rw [← hc.valueOf? h hlive]
  rcases hf.here with ⟨rfl, hnone⟩ | ⟨rfl, e, he, hb⟩
  · symm
    refine valueOf?_eq_none_iff.2 (hc.sound.absent hhash hf.lt hnone fun x hx hd e he => ?_)
    obtain ⟨f, hf', -, hkey⟩ := hf.passed x hx hd
    rw [he] at hf'
    cases hf'
    exact hkey
  · rw [valueOf?_eq_some hc.sound.nodup (mem_entries_of_entryAt he) (Entry.belongs_iff.1 hb).1]
    simp [he]

theorem WellFormed.get? (h : t.WellFormed) (hlive : live key = true) :
    ∃ j found out, t.Cleaned live out (t.get? live key).2 ∧
      Found live (t.get? live key).2 key j found ∧ (t.get? live key).1 = t.valueOf? key :=
  h.toSound.get? h.hash_eq hlive

end Table

end PerThread
