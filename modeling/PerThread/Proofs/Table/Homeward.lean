import PerThread.Proofs.Table.TakeOver

/-!
# Towards home

An entry stands at some distance behind its home, and a search for its identity has to go that far. Two properties of
the slots on that way are carried through the operations here. `Nearer t u key` compares two tables: the entry of `key`
is no farther from its home in `u` than it is in `t`. `Found` is about one table: nothing stale stands before the slot
at which a search ends.

Cleaning brings entries nearer and never moves a stale one, so it spoils neither. An insertion begins with one write
to the slot at which its search ended; all that follows is cleaning, unless the table grows.
-/

namespace PerThread

variable {ν : Type} {live : Liveness}

/-- A step away from `h` is a step farther from it, up to the position before `h`. -/
theorem Cyclic.dist_succ {n h i : Nat} (hh : h < n) (hi : i < n) (hlt : dist n h i + 1 < n) :
    dist n h (next n i) = dist n h i + 1 := by
  unfold dist next at *
  grind

namespace Table

variable {t u w : Table ν} {key other : Identity} {value : ν} {i j : Nat} {e f : Entry ν} {out : List (Entry ν)}

/-! ## Distances from home -/

/-- If both tables have an entry of `key`, then it is no farther from its home in `u` than in `t`. -/
def Nearer (t u : Table ν) (key : Identity) : Prop :=
  ∀ i e j f, t.entryAt i = some e → e.key = key → u.entryAt j = some f → f.key = key →
    Cyclic.dist t.capacity (t.slots.home key.hash) j ≤ Cyclic.dist t.capacity (t.slots.home key.hash) i

theorem Sound.nearer_refl (h : t.Sound) (key : Identity) : t.Nearer t key := by
  intro i e j f hi hkey hj hkey'
  have hij := h.index_unique hi hj (hkey.trans hkey'.symm)
  exact Nat.le_of_eq (by rw [hij])

/-- Where the entry of `key` stands in `u` tells all there is to know about it. -/
theorem Sound.nearer_of_entryAt (h : u.Sound) (hj : u.entryAt j = some f) (hkey : f.key = key)
    (hle : ∀ i e, t.entryAt i = some e → e.key = key →
      Cyclic.dist t.capacity (t.slots.home key.hash) j ≤ Cyclic.dist t.capacity (t.slots.home key.hash) i) :
    t.Nearer u key := by
  intro i e x g hi hkey' hx hg
  rw [← h.index_unique hj hx (hkey.trans hg.symm)]
  exact hle i e hi hkey'

/-- Cleaning brings every entry nearer to its home, or leaves it where it is. -/
theorem Nearer.shed (h : t.Nearer w key) (hcap : w.capacity = t.capacity)
    (hhash : ∀ e ∈ w.entries, e.hash = e.key.hash) (hshed : w.Shed live out u) : t.Nearer u key := by
  intro i e j f hi hkey hj hkey'
  obtain ⟨x, hx, hle, -⟩ := hshed.moved j f hj
  rw [hhash f (mem_entries_of_entryAt hx), hkey', hcap, home_congr hcap] at hle
  exact Nat.le_trans hle (h i e x f hi hkey hx hkey')

/-! ## Ways without stale entries -/

/-- A search ends at the entry of `key` if nothing before it is stale. -/
theorem Sound.found_of_entryAt (h : u.Sound) (hlive : live key = true) (hj : u.entryAt j = some e)
    (hkey : e.key = key) (hhash : e.hash = key.hash)
    (hway : ∀ x < u.capacity, Cyclic.dist u.capacity (u.slots.home key.hash) x <
      Cyclic.dist u.capacity (u.slots.home key.hash) j → u.staleAt live x = false) :
    Found live u key j (some j) := by
  have hled := h.led j e hj
  rw [hhash] at hled
  refine ⟨lt_of_entryAt hj, ?_, Or.inr ⟨rfl, e, hj, Entry.belongs_iff.2 ⟨hkey, by simp [Entry.stale_eq hkey, hlive]⟩⟩⟩
  intro x hx hd
  obtain ⟨g, hg⟩ := Option.isSome_iff_exists.1 (hled x hx (Nat.le_of_lt hd))
  have hg : u.entryAt x = some g := hg
  refine ⟨g, hg, ?_, ?_⟩
  · have hfresh := hway x hx hd
    simpa [staleAt, hg] using hfresh
  · intro hgk
    rw [h.index_unique hg hj (hgk.trans hkey.symm)] at hd
    exact Nat.lt_irrefl _ hd

/-- Where a search ends, nothing stale has been left behind it or stands there. -/
theorem Found.staleAt {found : Option Nat} (h : Found live u key j found) {x : Nat} (hx : x < u.capacity)
    (hd : Cyclic.dist u.capacity (u.slots.home key.hash) x ≤ Cyclic.dist u.capacity (u.slots.home key.hash) j) :
    u.staleAt live x = false := by
  rcases Nat.lt_or_eq_of_le hd with hlt | heq
  · obtain ⟨g, hg, hgs, -⟩ := h.passed x hx hlt
    simp [Table.staleAt, hg, hgs]
  · have hhome := home_lt (Nat.zero_lt_of_lt hx) key.hash
    rw [Cyclic.dist_inj hhome hx h.lt heq]
    rcases h.here with ⟨-, hnone⟩ | ⟨-, g, hg, hb⟩
    · simp [Table.staleAt, hnone]
    · simp [Table.staleAt, hg, (Entry.belongs_iff.1 hb).2]

/-- Cleaning leaves a way clear: the entry at its end comes nearer, and what is stale does not move. -/
theorem Found.cleaned (h : Found live t key i (some i)) (ht : t.Sound) (hhash : ∀ e ∈ t.entries, e.hash = e.key.hash)
    (hlive : live key = true) (hc : t.Cleaned live out u) : ∃ j, Found live u key j (some j) := by
  obtain ⟨e, he, hb⟩ := (h.here.resolve_left fun hno => nomatch hno.1).2
  obtain ⟨hkey, hes⟩ := Entry.belongs_iff.1 hb
  have hash : e.hash = key.hash := by rw [hhash e (mem_entries_of_entryAt he), hkey]
  obtain ⟨j, hj⟩ := mem_entries.1 ((hc.mem_iff hes).2 (mem_entries_of_entryAt he))
  obtain ⟨x, hx, hle, -⟩ := hc.moved j e hj
  rw [ht.index_unique hx he rfl, hash] at hle
  refine ⟨j, hc.sound.found_of_entryAt hlive hj hkey hash ?_⟩
  intro y hy hd
  rw [hc.capacity_eq] at hy
  rw [hc.capacity_eq, home_congr hc.capacity_eq] at hd
  have hbefore : t.staleAt live y = false := h.staleAt hy (by omega)
  rw [Bool.eq_false_iff] at hbefore ⊢
  exact fun hst => hbefore (hc.staleAt_of_staleAt hst)

/-- On a clear way a search walks to the end and changes nothing. -/
theorem Found.search {found : Option Nat} {fuel : Nat} (h : Found live u key j found) (hi : i < u.capacity)
    (hle : Cyclic.dist u.capacity (u.slots.home key.hash) i ≤ Cyclic.dist u.capacity (u.slots.home key.hash) j)
    (hfuel : Cyclic.dist u.capacity (u.slots.home key.hash) j <
      Cyclic.dist u.capacity (u.slots.home key.hash) i + fuel) :
    Table.search live key fuel i u = some (found, u) := by
  have hhome := home_lt (Nat.zero_lt_of_lt hi) key.hash
  induction fuel generalizing i with
  | zero => omega
  | succ fuel ih =>
    unfold Table.search
    rcases Nat.lt_or_eq_of_le hle with hlt | heq
    · obtain ⟨e, he, hes, hkey⟩ := h.passed i hi hlt
      have hb : e.belongs live key = false := by
        rw [Bool.eq_false_iff]
        exact fun hb => hkey (Entry.belongs_iff.1 hb).1
      have hjn := Cyclic.dist_lt hhome h.lt
      have hstep : Cyclic.dist u.capacity (u.slots.home key.hash) (u.next i) =
          Cyclic.dist u.capacity (u.slots.home key.hash) i + 1 := Cyclic.dist_succ hhome hi (by omega)
      simp only [he, hb, hes, Bool.false_eq_true, if_false]
      exact ih (next_lt hi) (by omega) (by omega)
    · rw [Cyclic.dist_inj hhome hi h.lt heq]
      rcases h.here with ⟨rfl, hnone⟩ | ⟨rfl, e, he, hb⟩
      · simp [hnone]
      · simp [he, hb]

/-- So does a lookup. -/
theorem WellFormed.get?_of_found {found : Option Nat} (h : u.WellFormed) (hlive : live key = true)
    (hf : Found live u key j found) : u.get? live key = (u.valueOf? key, u) := by
  have hhome := h.toSound.home_lt key.hash
  have hjn := Cyclic.dist_lt hhome hf.lt
  have hself := Cyclic.dist_self u.capacity (u.slots.home key.hash)
  have hsearch : Table.search live key (u.searchLimit live) (u.slots.home key.hash) u = some (found, u) :=
    hf.search hhome (by omega) (by unfold searchLimit; omega)
  obtain ⟨-, -, -, -, -, hvalue⟩ := h.get? hlive
  have hleft : (u.get? live key).2 = u := by
    unfold Table.get?
    rw [hsearch]
    rfl
  exact Prod.ext hvalue hleft

/-- A lookup of an identity that has an entry ends at it, no farther from its home than it stood. -/
theorem WellFormed.search_of_entryAt (h : u.WellFormed) (hlive : live key = true) (hj : u.entryAt j = some f)
    (hkey : f.key = key) :
    ∃ x v, Table.search live key (u.searchLimit live) (u.slots.home key.hash) u = some (some x, v) ∧
      v.entryAt x = some f ∧
      Cyclic.dist u.capacity (u.slots.home key.hash) x ≤ Cyclic.dist u.capacity (u.slots.home key.hash) j := by
  obtain ⟨z, hz, hfree⟩ := h.exists_free
  obtain ⟨x, found, out, v, hsearch, hc, hf⟩ := h.toSound.search (u.searchLimit live) hz hfree
    (h.toSound.home_lt key.hash) (passed_home live u key) (by unfold searchLimit; omega)
  have hfs : f.stale live = false := by simp [Entry.stale_eq hkey, hlive]
  have hmem : f ∈ v.entries := (hc.mem_iff hfs).2 (mem_entries_of_entryAt hj)
  obtain ⟨y, hy⟩ := mem_entries.1 hmem
  rcases hf.here with ⟨-, hnone⟩ | ⟨rfl, g, hg, hb⟩
  · exact absurd hkey (hf.passed.absent (h.of_cleaned hc) hf.lt hnone f hmem)
  · rw [← hc.sound.index_unique hg hy ((Entry.belongs_iff.1 hb).1.trans hkey.symm)] at hy
    exact ⟨x, v, hsearch, hy, (h.toSound.nearer_refl key).shed rfl h.hash_eq hc.toShed j f x f hj hkey hy hkey⟩

/-! ## The write an insertion begins with -/

/-- Slot `i`, where the search for `key` ended, got the entry with the new value, and the live entries of other
identities are where they were. -/
structure Wrote (live : Liveness) (t : Table ν) (key : Identity) (value : ν) (i : Nat) (w : Table ν) : Prop
    extends Written live t key value w where
  way : t.Passed live key i
  here : w.entryAt i = some (.of key value)
  stay : ∀ x e, t.entryAt x = some e → e.stale live = false → e.key ≠ key → w.entryAt x = some e

theorem Wrote.found (h : Wrote live t key value i w) (hlive : live key = true) : Found live w key i (some i) := by
  refine ⟨lt_of_entryAt h.here, ?_, Or.inr ⟨rfl, _, h.here, Entry.belongs_iff.2 ⟨rfl, ?_⟩⟩⟩
  · intro x hx hd
    rw [h.capacity_eq] at hx
    rw [h.capacity_eq, home_congr h.capacity_eq] at hd
    obtain ⟨e, he, hes, hkey⟩ := h.way x hx hd
    exact ⟨e, h.stay x e he hes hkey, hes, hkey⟩
  · simp [Entry.of, Entry.stale, hlive]

theorem Wrote.nearer (h : Wrote live t key value i w) (hother : live other = true) : t.Nearer w other := by
  by_cases hok : other = key
  · subst hok
    refine h.sound.nearer_of_entryAt h.here rfl ?_
    intro x e hx hkey
    -- an entry of `key` before slot `i` would have ended the search
    by_contra hlt
    obtain ⟨g, hg, -, hgk⟩ := h.way x (lt_of_entryAt hx) (Nat.lt_of_not_le hlt)
    rw [hx] at hg
    cases hg
    exact hgk hkey
  · intro x e j f hx hkey hj hkey'
    have hes : e.stale live = false := by simp [Entry.stale_eq hkey, hother]
    have hwx := h.stay x e hx hes (hkey.trans_ne hok)
    have hjx := h.sound.index_unique hj hwx (hkey'.trans hkey.symm)
    exact Nat.le_of_eq (by rw [hjx])

theorem WellFormed.wrote_occupy (h : t.WellFormed) (hi : i < t.capacity) (hfree : t.entryAt i = none)
    (hp : t.Passed live key i) (value : ν) : Wrote live t key value i (t.occupy i (.of key value)) := by
  have hat : ∀ x, (t.occupy i (.of key value)).entryAt x = if i = x then some (.of key value) else t.entryAt x :=
    Slots.entryAt_put hi (some (.of key value))
  refine { h.written_occupy hi hfree hp value with way := hp, here := ?_, stay := ?_ }
  · rw [hat, if_pos rfl]
  · intro x e hx _ _
    rw [hat, if_neg (fun hix => by simp [← hix, hfree] at hx), hx]

theorem WellFormed.wrote_overwrite (h : t.WellFormed) (he : t.entryAt i = some e) (hkey : e.key = key)
    (hp : t.Passed live key i) (value : ν) : Wrote live t key value i (t.overwrite i value) := by
  have hat := entryAt_overwrite he value
  refine { h.written_overwrite live he hkey value with way := hp, here := ?_, stay := ?_ }
  · rw [hat, if_pos rfl, Entry.with_value (h.hash_eq e (mem_entries_of_entryAt he)) hkey value]
  · intro x f hx _ hne
    rw [hat, if_neg ?_, hx]
    rintro rfl
    rw [he] at hx
    cases hx
    exact hne hkey

theorem WellFormed.wrote_moved (h : t.WellFormed) (hlive : live key = true) (he : t.entryAt i = some e)
    (hs : e.stale live = true) (hp : t.Passed live key i)
    (hf : Cyclic.First t.capacity (fun x => (t.entryAt x).all (·.belongs live key)) (t.next i) j)
    (hj : t.entryAt j = some f) (hkey : f.key = key) (value : ν) :
    Wrote live t key value i ((t.overwrite j value).exchange j i) := by
  have hij : j ≠ i := ne_of_stale he hs hj (by simp [Entry.stale_eq hkey, hlive])
  have hat := h.entryAt_moved he hij hj hkey value
  refine { h.written_moved hlive he hs hp hf hj hkey value with way := hp, here := ?_, stay := ?_ }
  · rw [hat, if_pos rfl]
  · intro x g hx hgs hgk
    have hix : i ≠ x := (ne_of_stale he hs hx hgs).symm
    have hjx : j ≠ x := by
      rintro rfl
      rw [hj] at hx
      cases hx
      exact hgk hkey
    rw [hat, if_neg hix, if_neg hjx, hx]

theorem WellFormed.wrote_replace (h : t.WellFormed) (he : t.entryAt i = some e) (hs : e.stale live = true)
    (hp : t.Passed live key i) (habsent : ∀ f ∈ t.entries, f.key ≠ key) (value : ν) :
    Wrote live t key value i (t.replace i (.of key value)) := by
  have hat := entryAt_replace (lt_of_entryAt he) (Entry.of key value)
  refine { h.written_replace he hs hp habsent value with way := hp, here := ?_, stay := ?_ }
  · rw [hat, if_pos rfl]
  · intro x g hx hgs _
    rw [hat, if_neg (ne_of_stale he hs hx hgs).symm, hx]

/-! ## What follows the write -/

/-- Making room is cleaning, and growing if that was not enough. -/
theorem Sound.makeRoom_cases (h : w.Sound) (live : Liveness) :
    ∃ out v, w.Cleaned live out v ∧ ((w.makeRoom live).1 = v ∨ (w.makeRoom live).1 = v.grow live) := by
  obtain ⟨out, hc, -⟩ := h.sweep live
  refine ⟨out, w.sweep live, hc, ?_⟩
  unfold makeRoom
  dsimp only
  split
  · exact Or.inr rfl
  · exact Or.inl rfl

/-- An insertion writes to the slot at which its search ended. Then it cleans, and may grow after that. -/
theorem WellFormed.insert_wrote (h : t.WellFormed) (hlive : live key = true) (value : ν) :
    ∃ i w out v, Wrote live t key value i w ∧ w.Cleaned live out v ∧
      ((t.insert live key value).1 = v ∨ (t.insert live key value).1 = v.grow live) := by
  obtain ⟨i, hseek, hi, hp, hkind⟩ := h.seek_insert live key
  unfold Table.insert
  rw [hseek]
  cases he : t.entryAt i with
  | none =>
    have hw := h.wrote_occupy hi he hp value
    simp only [he]
    rw [fill_eq]
    dsimp only
    obtain ⟨out, hc, hnone, -⟩ := hw.sound.scan live i (t.occupy i (.of key value)).len
    split
    · rename_i hroom
      -- a scan without a hit has left the table as the write made it
      rw [hnone hroom.1]
      obtain ⟨out, v, hc, hroom⟩ := hw.sound.makeRoom_cases live
      exact ⟨i, _, out, v, hw, hc, hroom⟩
    · exact ⟨i, _, out, _, hw, hc, Or.inl rfl⟩
  | some e =>
    simp only [he]
    by_cases hb : e.belongs live key = true
    · have hw := h.wrote_overwrite he (Entry.belongs_iff.1 hb).1 hp value
      rw [if_pos hb]
      exact ⟨i, _, [], _, hw, .refl live hw.sound, Or.inl rfl⟩
    · have hs := (hkind e he).resolve_left hb
      rw [if_neg hb]
      rcases h.takeOver_cases hlive he hs hp value with ⟨j, f, hf, hj, hbj, heq⟩ | ⟨habsent, heq⟩
      · have hw := h.wrote_moved hlive he hs hp hf hj (Entry.belongs_iff.1 hbj).1 value
        obtain ⟨g, hg, hgs⟩ := staleAt_iff.1 (h.staleAt_anchor_moved he hs hf hj hbj value)
        obtain ⟨out, hc⟩ := hw.sound.clean hg hgs
        exact ⟨i, _, _, _, hw, hc, Or.inl heq⟩
      · have hw := h.wrote_replace he hs hp habsent value
        by_cases hanchor : t.anchor live key i = i
        · rw [if_pos hanchor] at heq
          exact ⟨i, _, [], _, hw, .refl live hw.sound, Or.inl heq⟩
        · rw [if_neg hanchor] at heq
          obtain ⟨g, hg, hgs⟩ := staleAt_iff.1 (h.staleAt_anchor_replace hi habsent hanchor value)
          obtain ⟨out, hc⟩ := hw.sound.clean hg hgs
          exact ⟨i, _, _, _, hw, hc, Or.inl heq⟩

/-- So the new entry is found without a stale one on the way. -/
theorem WellFormed.insert_found (h : t.WellFormed) (hlive : live key = true) (value : ν) :
    ∃ j, Found live (t.insert live key value).1 key j (some j) := by
  have hstored := h.insert hlive value
  obtain ⟨i, w, out, v, hw, hc, hsame | hgrown⟩ := h.insert_wrote hlive value
  · rw [hsame]
    exact (hw.found hlive).cleaned hw.sound (hw.hash_eq h) hlive hc
  · have hdouble : (t.insert live key value).1.capacity = 2 * t.capacity := by
      rw [hgrown, capacity_grow, hc.capacity_eq, hw.capacity_eq]
    obtain ⟨j, hj⟩ := mem_entries.1 hstored.mem
    -- before a table is doubled it is swept
    have hclean : ∀ e ∈ (t.insert live key value).1.entries, e.stale live = false := by
      have hpos := h.room
      exact (hstored.grown.resolve_left (by omega)).2.2
    refine ⟨j, hstored.wellFormed.toSound.found_of_entryAt hlive hj rfl rfl fun x _ _ => ?_⟩
    rw [Bool.eq_false_iff]
    intro hst
    obtain ⟨e, he, hes⟩ := staleAt_iff.1 hst
    simp [hclean e (mem_entries_of_entryAt he)] at hes

end Table

end PerThread
