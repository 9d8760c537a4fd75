import PerThread.Proofs.Table.TakeOver

/-!
# What expunging does to its range

The range of a slot goes from the slot up to the next free one, along the ring. Expunging an occupied slot changes
nothing outside its range. Inside, the entry of the slot and the stale entries behind it leave, and their values are
given up in the order in which a walk along the range meets them. All other entries stay inside the range, in one
slot each.

That a range ends at all, and that every entry is found from its home again when the walk has come to the end, is
the matter of `Walk`, which describes the table in the middle of the repair.
-/

namespace PerThread.Table

variable {ν : Type} {live : Liveness} {t u : Table ν} {i r x : Nat} {e f : Entry ν}

/-- Slot `x` is met on the way from slot `i` to slot `r`, before `r`. -/
def Within (t : Table ν) (i r x : Nat) : Prop :=
  x < t.capacity ∧ Cyclic.dist t.capacity i x < Cyclic.dist t.capacity i r

/-- The entry of slot `i`, and the stale ones behind it that a walk meets before it comes to slot `r`. -/
def expelled (live : Liveness) (t : Table ν) (i r : Nat) : List (Entry ν) :=
  (t.entryAt i).toList ++ (t.arc (t.next i) (Cyclic.dist t.capacity (t.next i) r)).filter (·.stale live)

/-! ## Walks -/

/-- A walk of `d` steps meets what stands in the slots less than `d` steps away. -/
theorem mem_arc {d : Nat} (hi : i < t.capacity) (hd : d ≤ t.capacity) :
    f ∈ t.arc i d ↔ ∃ x < t.capacity, Cyclic.dist t.capacity i x < d ∧ t.entryAt x = some f := by
  induction d generalizing i with
  | zero => simp [arc]
  | succ d ih =>
    simp only [arc, List.mem_append, Option.mem_toList, ih (next_lt hi) (by omega)]
    constructor
    · rintro (hhere | ⟨x, hx, hdx, hlater⟩)
      · refine ⟨i, hi, ?_, hhere⟩
        rw [Cyclic.dist_self]
        omega
      · refine ⟨x, hx, ?_, hlater⟩
        by_cases hxi : x = i
        · rw [hxi, Cyclic.dist_self]
          omega
        · have hstep : _ = Cyclic.dist t.capacity (t.next i) x + 1 := Cyclic.dist_next hi hx hxi
          omega
    · rintro ⟨x, hx, hdx, hat⟩
      by_cases hxi : x = i
      · left
        rw [← hxi]
        exact hat
      · right
        have hstep : _ = Cyclic.dist t.capacity (t.next i) x + 1 := Cyclic.dist_next hi hx hxi
        exact ⟨x, hx, by omega, hat⟩

/-- Behind the first slot, a range is made of the slots that a walk from the next one on meets. -/
theorem within_next (hi : i < t.capacity) (hr : r < t.capacity) (hri : r ≠ i) (hxi : x ≠ i) :
    t.Within i r x ↔ x < t.capacity ∧ Cyclic.dist t.capacity (t.next i) x < Cyclic.dist t.capacity (t.next i) r := by
  have hr' : _ = Cyclic.dist t.capacity (t.next i) r + 1 := Cyclic.dist_next hi hr hri
  unfold Within
  refine and_congr_right fun hx => ?_
  have hx' : _ = Cyclic.dist t.capacity (t.next i) x + 1 := Cyclic.dist_next hi hx hxi
  omega

theorem within_self (hi : i < t.capacity) (hr : r < t.capacity) (hri : r ≠ i) : t.Within i r i := by
  have hr' : _ = Cyclic.dist t.capacity (t.next i) r + 1 := Cyclic.dist_next hi hr hri
  refine ⟨hi, ?_⟩
  rw [Cyclic.dist_self]
  omega

theorem mem_expelled (he : t.entryAt i = some e) (hr : r < t.capacity) (hri : r ≠ i) :
    f ∈ t.expelled live i r ↔ ∃ x, t.Within i r x ∧ t.entryAt x = some f ∧ (x = i ∨ f.stale live = true) := by
  have hi := lt_of_entryAt he
  have hdr : Cyclic.dist t.capacity (t.next i) r ≤ t.capacity := Nat.le_of_lt (Cyclic.dist_lt (next_lt hi) hr)
  unfold expelled
  simp only [List.mem_append, Option.mem_toList, List.mem_filter, mem_arc (next_lt hi) hdr]
  constructor
  · rintro (hhere | ⟨⟨x, hx, hdx, hat⟩, hs⟩)
    · exact ⟨i, within_self hi hr hri, hhere, Or.inl rfl⟩
    · by_cases hxi : x = i
      · exact ⟨i, within_self hi hr hri, hxi ▸ hat, Or.inl rfl⟩
      · exact ⟨x, (within_next hi hr hri hxi).2 ⟨hx, hdx⟩, hat, Or.inr hs⟩
  · rintro ⟨x, hx, hat, hwhy⟩
    by_cases hxi : x = i
    · left
      rw [← hxi]
      exact hat
    · right
      obtain ⟨hlt, hdx⟩ := (within_next hi hr hri hxi).1 hx
      exact ⟨⟨x, hlt, hdx, hat⟩, hwhy.resolve_left hxi⟩

/-! ## The range after expunging -/

namespace Expunged

theorem ne_start (h : Expunged live t i e r u) (he : t.entryAt i = some e) : r ≠ i := by
  rintro rfl
  have hfree := h.free
  rw [he] at hfree
  cases hfree

theorem first (h : Expunged live t i e r u) : Cyclic.First t.capacity (fun x => (t.entryAt x).isNone) i r where
  lt := h.lt
  sat := by simp [h.free]
  before x hx hd := by
    have hocc := h.occupied x hx hd
    simpa [← Option.not_isSome] using hocc

/-- The free slot at the end of the range is one of those that do not change. -/
theorem outside (h : Expunged live t i e r u) (hi : i < t.capacity) (hx : x < t.capacity) (hout : ¬ t.Within i r x) :
    u.entryAt x = t.entryAt x := by
  rcases Nat.lt_trichotomy (Cyclic.dist t.capacity i x) (Cyclic.dist t.capacity i r) with hlt | heq | hgt
  · exact absurd ⟨hx, hlt⟩ hout
  · rw [Cyclic.dist_inj hi hx h.lt heq, h.free, h.free_after]
  · exact h.frame x hx hgt

theorem expelled_eq (he : t.entryAt i = some e) :
    e :: (t.arc (t.next i) (Cyclic.dist t.capacity (t.next i) r)).filter (·.stale live) = t.expelled live i r := by
  rw [expelled, he]
  rfl

theorem turnover (h : Expunged live t i e r u) (he : t.entryAt i = some e) :
    t.Turnover (t.expelled live i r) [] u := by
  rw [← expelled_eq he]
  exact h.shed.turnover

/-- What has left is not there any more, since no identity occurs twice. -/
theorem not_mem_of_expelled (h : Expunged live t i e r u) (ht : t.Sound) (he : t.entryAt i = some e)
    (hf : f ∈ t.expelled live i r) : f ∉ u.entries := by
  intro hmem
  have hkeys := ((h.turnover he).entries.map Entry.key).nodup_iff.1 (by simpa using ht.nodup)
  rw [List.map_append, List.nodup_append] at hkeys
  exact hkeys.2.2 f.key (List.mem_map_of_mem hf) f.key (List.mem_map_of_mem hmem) rfl

/-- What stays was not outside the range before, so it is not there now. -/
theorem kept (h : Expunged live t i e r u) (ht : t.Sound) (he : t.entryAt i = some e) (hx : t.Within i r x)
    (hf : t.entryAt x = some f) (hstays : f ∉ t.expelled live i r) :
    ∃ y, t.Within i r y ∧ ∀ z, u.entryAt z = some f ↔ z = y := by
  have hi := lt_of_entryAt he
  have hmem : f ∈ u.entries :=
    ((h.turnover he).mem_or_mem (mem_entries_of_entryAt hf)).resolve_left hstays
  obtain ⟨y, hy⟩ := mem_entries.1 hmem
  have hlt : y < t.capacity := by
    rw [← h.shed.capacity_eq]
    exact lt_of_entryAt hy
  refine ⟨y, ?_, ?_⟩
  · by_contra hout
    have hbefore : t.entryAt y = some f := by rw [← h.outside hi hlt hout, hy]
    have hyx : y = x := ht.index_unique hbefore hf rfl
    rw [hyx] at hout
    exact hout hx
  · intro z
    constructor
    · intro hz
      exact h.sound.index_unique hz hy rfl
    · rintro rfl
      exact hy

end Expunged

/-- Expunging an occupied slot, be its entry stale or live, comes to the next free slot `r`, which stays free. Outside
the range nothing changes. The entry of the slot and the stale ones of the range leave, their values being given up
in the order of the walk, and the length falls by their number. Every other entry of the range stands in one slot,
which is in the range. The table is sound again. -/
theorem Sound.expunge_range (h : t.Sound) (he : t.entryAt i = some e) (hrun : t.expunge live i = (r, u)) :
    (Cyclic.First t.capacity (fun x => (t.entryAt x).isNone) i r ∧ u.entryAt r = none) ∧
    u.capacity = t.capacity ∧
    (∀ x < t.capacity, ¬ t.Within i r x → u.entryAt x = t.entryAt x) ∧
    (∀ f, f ∈ t.expelled live i r ↔
      ∃ x, t.Within i r x ∧ t.entryAt x = some f ∧ (x = i ∨ f.stale live = true)) ∧
    (∀ f ∈ t.expelled live i r, f ∉ u.entries) ∧
    u.reclaimed = t.reclaimed ++ (t.expelled live i r).map Entry.value ∧
    (∀ x f, t.Within i r x → t.entryAt x = some f → f ∉ t.expelled live i r →
      ∃ y, t.Within i r y ∧ ∀ z, u.entryAt z = some f ↔ z = y) ∧
    u.len + (t.expelled live i r).length = t.len ∧
    u.Sound := by
  have hexp : Expunged live t i e r u := by
    have hwhole := h.expunge live he
    rwa [hrun] at hwhole
  have hi := lt_of_entryAt he
  have hto := hexp.turnover he
  refine ⟨⟨hexp.first, hexp.free_after⟩, hexp.shed.capacity_eq, ?_, ?_, ?_, hto.reclaimed, ?_, ?_, hexp.sound⟩
  · intro x hx hout
    exact hexp.outside hi hx hout
  · intro f
    exact mem_expelled he hexp.lt (hexp.ne_start he)
  · intro f hf
    exact hexp.not_mem_of_expelled h he hf
  · intro x f hx hf hstays
    exact hexp.kept h he hx hf hstays
  · have hlength := hto.length_eq
    have ht := h.len_eq
    have hu := hexp.sound.len_eq
    simp only [List.length_nil] at hlength
    omega

/-- Five entries around the end of the ring, in slots 14, 15, 0, 1 and 2. All but the last belong into slot 14, and the
second has been let go of. The first one is taken out while it is live: the third and the fourth come home across the
end of the ring, and the last one stays where it belongs. -/
theorem expunge_range_of_wrapped :
    ∃ t : Table Nat, t.Sound ∧ t.entryAt 14 = some ⟨⟨0, 14⟩, 14, 20⟩ ∧
      ∃ u, t.expunge (fun key => key.serial != 1) 14 = (3, u) ∧ u.reclaimed = [20, 21] ∧ u.len + 2 = 5 ∧
        u.entryAt 15 = some ⟨⟨3, 14⟩, 14, 23⟩ ∧ u.entryAt 2 = some ⟨⟨4, 2⟩, 2, 24⟩ ∧
        ∃ y, t.Within 14 3 y ∧ ∀ z, u.entryAt z = some ⟨⟨3, 14⟩, 14, 23⟩ ↔ z = y := by
  have hs := (sound_endow [⟨⟨0, 14⟩, 14, 20⟩, ⟨⟨1, 14⟩, 14, 21⟩, ⟨⟨2, 14⟩, 14, 22⟩, ⟨⟨3, 14⟩, 14, 23⟩,
    ⟨⟨4, 2⟩, 2, 24⟩] (n := 16) (by decide) (by decide)).1
  obtain ⟨-, -, -, -, -, hgiven, hkept, hlen, -⟩ :=
    @Sound.expunge_range _ (fun key => key.serial != 1) _ _ 14 3 ⟨⟨0, 14⟩, 14, 20⟩ hs rfl rfl
  exact ⟨_, hs, rfl, _, rfl, hgiven, hlen, rfl, rfl,
    hkept 1 ⟨⟨3, 14⟩, 14, 23⟩ ⟨by decide, by decide⟩ rfl (by decide)⟩

end PerThread.Table
