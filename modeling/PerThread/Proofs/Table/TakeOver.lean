import PerThread.Proofs.Table.Insert

/-!
# Taking over a stale slot

The slot `i` on the way of an insertion holds a stale entry. Either the entry of the identity stands
further on in the run, at the first slot `j` behind `i` that a search would stop at, or there is none in
the whole table, because the way from home leads through `i` to a free slot. The cleaning that follows
starts at a slot that holds a stale entry after the write, so no live entry is dropped by it.
-/

namespace PerThread.Table

open Cyclic (rank)

variable {ν : Type} {live : Liveness} {t u w : Table ν} {key : Identity} {value : ν}

/-! ## Where cleaning starts -/

theorem earliestStale_staleAt {fuel x best b : Nat} (h : t.earliestStale live fuel x best = some b) :
    b = best ∨ t.staleAt live b = true := by
  induction fuel generalizing x best with
  | zero => simp [earliestStale] at h
  | succ fuel ih =>
    unfold earliestStale at h
    split at h
    · exact Or.inl (Option.some.inj h).symm
    · rename_i e he
      rcases ih h with hb | hb
      · split at hb
        · rename_i hs
          exact Or.inr (hb ▸ staleAt_iff.2 ⟨e, he, hs⟩)
        · exact Or.inl hb
      · exact Or.inr hb

/-- Cleaning starts at another stale slot, at the next slot of interest behind `i`, or nowhere. -/
theorem Sound.anchor_cases (h : t.Sound) (live : Liveness) (key : Identity) {i : Nat} (hi : i < t.capacity) :
    t.anchor live key i ≠ i ∧ t.staleAt live (t.anchor live key i) = true ∨
    ∃ j, Cyclic.First t.capacity
        (fun x => (t.entryAt x).all fun e => e.belongs live key || e.stale live) (t.next i) j ∧
      t.anchor live key i = if (t.entryAt j).isSome then j else i := by
  obtain ⟨j, hseek, hf⟩ := h.seek (p := (·.all fun e => e.belongs live key || e.stale live)) rfl (next_lt hi)
  unfold anchor
  dsimp only
  split
  · rename_i hne
    refine Or.inl ⟨hne, ?_⟩
    cases hb : t.earliestStale live t.capacity (t.prev i) i with
    | none => simp [hb] at hne
    | some b =>
      rw [hb, Option.getD_some] at hne
      exact (earliestStale_staleAt hb).resolve_left hne
  · rw [hseek]
    exact Or.inr ⟨j, hf, rfl⟩

theorem ne_of_stale {i j : Nat} {e f : Entry ν} (hi : t.entryAt i = some e) (hs : e.stale live = true)
    (hj : t.entryAt j = some f) (hlive : f.stale live = false) : j ≠ i := by
  rintro rfl
  rw [hi] at hj
  cases hj
  simp [hlive] at hs

/-- If the entry of `key` is the next thing a search meets, cleaning starts there or at a stale slot. -/
theorem Sound.anchor_of_own (h : t.Sound) {i j : Nat} {e f : Entry ν} (he : t.entryAt i = some e)
    (hs : e.stale live = true) (hf : Cyclic.First t.capacity
      (fun x => (t.entryAt x).all (·.belongs live key)) (t.next i) j) (hj : t.entryAt j = some f)
    (hb : f.belongs live key = true) :
    t.anchor live key i ≠ i ∧ (t.anchor live key i = j ∨ t.staleAt live (t.anchor live key i) = true) := by
  have hi := lt_of_entryAt he
  have hij : j ≠ i := ne_of_stale he hs hj (Entry.belongs_iff.1 hb).2
  rcases h.anchor_cases live key hi with ⟨hne, hst⟩ | ⟨k, hfk, heq⟩
  · exact ⟨hne, Or.inr hst⟩
  · have hkj : Cyclic.dist t.capacity (t.next i) k ≤ Cyclic.dist t.capacity (t.next i) j :=
      hfk.le hf.lt (by simp [hj, hb])
    cases hk : t.entryAt k with
    | none =>
      have hjk : Cyclic.dist t.capacity (t.next i) j ≤ Cyclic.dist t.capacity (t.next i) k :=
        hf.le hfk.lt (by simp [hk])
      rw [Cyclic.dist_inj (next_lt hi) hf.lt hfk.lt (Nat.le_antisymm hjk hkj), hk] at hj
      cases hj
    | some g =>
      rw [hk, Option.isSome_some, if_pos rfl] at heq
      rw [heq]
      have hki : k ≠ i := by
        rintro rfl
        have hself : Cyclic.dist t.capacity (t.next k) k + 1 = t.capacity :=
          Cyclic.dist_next_self hi
        have hlt : Cyclic.dist t.capacity (t.next k) j < t.capacity := Cyclic.dist_lt (next_lt hi) hf.lt
        exact hij (Cyclic.dist_inj (next_lt hi) hf.lt hfk.lt (by omega))
      have hsat := hfk.sat
      simp only [hk, Option.all_some, Bool.or_eq_true] at hsat
      refine ⟨hki, hsat.imp (fun hg => ?_) fun hg => staleAt_iff.2 ⟨g, hk, hg⟩⟩
      exact h.index_unique hk hj ((Entry.belongs_iff.1 hg).1.trans (Entry.belongs_iff.1 hb).1.symm)

/-! ## The run behind the stale slot -/

/-- All slots are occupied from `i` up to the entry at which a search behind `i` would stop. -/
theorem Sound.linked_first (h : t.Sound) {i j : Nat} {e : Entry ν} (he : t.entryAt i = some e)
    (hf : Cyclic.First t.capacity (fun x => (t.entryAt x).all (·.belongs live key)) (t.next i) j)
    (hj : (t.entryAt j).isSome) : t.slots.Linked i j := by
  obtain ⟨z, hz, hfree⟩ := h.exists_free
  have hi := lt_of_entryAt he
  have hnext : rank t.capacity z (t.next i) = rank t.capacity z i + 1 := Slots.rank_next hz hfree he
  obtain ⟨hle, hbetween⟩ := hf.rank (next_lt hi) hz (by simp [hfree])
  refine (Slots.linked_iff_rank hz hfree hi hf.lt).2 ⟨?_, ?_⟩
  · show rank t.capacity z i ≤ rank t.capacity z j
    omega
  · intro x hx (h1 : rank t.capacity z i ≤ rank t.capacity z x) (h2 : rank t.capacity z x ≤ rank t.capacity z j)
    by_cases hxi : rank t.capacity z x = rank t.capacity z i
    · rw [Cyclic.rank_inj hz hx hi hxi, show t.slots.entryAt i = some e from he]
      rfl
    · by_cases hxj : rank t.capacity z x = rank t.capacity z j
      · rw [Cyclic.rank_inj hz hx hf.lt hxj]
        exact hj
      · have hno := hbetween x hx (by omega) (by omega)
        cases hox : t.entryAt x with
        | none => simp [hox] at hno
        | some g => exact Option.isSome_iff_exists.2 ⟨g, hox⟩

/-- A way that leads to slot `i` leads on to the first slot behind it that a search would stop at. -/
theorem Sound.leads_on (h : t.Sound) {i j : Nat} {e : Entry ν} {hash : UInt32} (he : t.entryAt i = some e)
    (hf : Cyclic.First t.capacity (fun x => (t.entryAt x).all (·.belongs live key)) (t.next i) j)
    (hj : (t.entryAt j).isSome) (hlead : t.slots.Leads hash i) : t.slots.Leads hash j := by
  obtain ⟨z, hz, hfree⟩ := h.exists_free
  have hlink : t.slots.Linked (t.slots.home hash) i := hlead
  exact hlink.trans hz hfree (h.home_lt hash) (lt_of_entryAt he) hf.lt (h.linked_first he hf hj)

/-- If a search behind the stale slot comes to a free slot, there is no entry of `key`. -/
theorem Passed.absent_beyond {i j : Nat} {e : Entry ν} (hp : t.Passed live key i) (h : t.WellFormed)
    (hlive : live key = true) (he : t.entryAt i = some e) (hs : e.stale live = true)
    (hf : Cyclic.First t.capacity (fun x => (t.entryAt x).all (·.belongs live key)) (t.next i) j)
    (hj : t.entryAt j = none) : ∀ f ∈ t.entries, f.key ≠ key := by
  have hi := lt_of_entryAt he
  have hhome := h.toSound.home_lt key.hash
  have hnext : rank t.capacity j (t.next i) = rank t.capacity j i + 1 := Slots.rank_next hf.lt hj he
  have hhi := hp.rank_le hi hf.lt hj
  obtain ⟨hle, hbetween⟩ := hf.rank (next_lt hi) hf.lt (by simp [hj])
  refine h.toSound.absent h.hash_eq hf.lt hj fun x hx hd f hx' hkey => ?_
  obtain ⟨h1, h2⟩ := (Cyclic.dist_lt_iff_rank hf.lt hhome hf.lt hx (by omega)).1 hd
  have hflive : f.stale live = false := by simp [Entry.stale_eq hkey, hlive]
  rcases Nat.lt_trichotomy (rank t.capacity j x) (rank t.capacity j i) with hlt | heq | hgt
  · obtain ⟨g, hg, -, hne⟩ := hp x hx ((Cyclic.dist_lt_iff_rank hf.lt hhome hi hx hhi).2 ⟨h1, hlt⟩)
    rw [hx'] at hg
    cases hg
    exact hne hkey
  · rw [Cyclic.rank_inj hf.lt hx hi heq, he] at hx'
    cases hx'
    simp [hflive] at hs
  · have := hbetween x hx (by omega) h2
    simp [hx', Entry.belongs_iff.2 ⟨hkey, hflive⟩] at this

/-! ## Both cases -/

theorem leads_overwrite {j x : Nat} {f : Entry ν} {hash : UInt32} (hj : t.entryAt j = some f) (value : ν)
    (h : t.slots.Leads hash x) : (t.overwrite j value).slots.Leads hash x := by
  refine h.mono (capacity_overwrite t j value) fun y hy => ?_
  rw [overwrite_eq hj]
  exact Slots.entryAt_put_isSome (lt_of_entryAt hj) _ hy

/-- What has been written without filling a slot may be cleaned from any stale slot on. -/
theorem Written.clean {i : Nat} {g : Entry ν} (hw : Written live t key value w) (h : t.WellFormed)
    (hlive : live key = true) (hlen : w.len = t.len) (hg : w.entryAt i = some g)
    (hs : g.stale live = true) : Stored live t key value (w.clean live i) := by
  obtain ⟨out, hc⟩ := hw.sound.clean hg hs
  have hle := hc.len_eq hw.sound
  have hlt := h.len_lt
  refine (hw.cleaned hlive hc).stored h ?_
  rw [hc.threshold_eq, hw.threshold_eq]
  omega

/-- The entry of `key` has changed places with the stale one, and has its new value. -/
theorem WellFormed.entryAt_moved (h : t.WellFormed) {i j : Nat} {e f : Entry ν} (he : t.entryAt i = some e)
    (hij : j ≠ i) (hj : t.entryAt j = some f) (hkey : f.key = key) (value : ν) (x : Nat) :
    ((t.overwrite j value).exchange j i).entryAt x =
      if i = x then some (.of key value) else if j = x then some e else t.entryAt x := by
  have hnew := Entry.with_value (h.hash_eq f (mem_entries_of_entryAt hj)) hkey value
  have hat := entryAt_overwrite hj value
  have hoj : (t.overwrite j value).entryAt j = some (.of key value) := by rw [hat, if_pos rfl, hnew]
  have hoi : (t.overwrite j value).entryAt i = some e := by rw [hat, if_neg hij, he]
  rw [entryAt_exchange hoj hoi, hat]
  by_cases hix : i = x
  · rw [if_pos hix, if_pos hix]
  · by_cases hjx : j = x
    · simp [hjx]
    · simp [hix, hjx]

theorem WellFormed.written_moved (h : t.WellFormed) (hlive : live key = true) {i j : Nat} {e f : Entry ν}
    (he : t.entryAt i = some e) (hs : e.stale live = true) (hp : t.Passed live key i)
    (hf : Cyclic.First t.capacity (fun x => (t.entryAt x).all (·.belongs live key)) (t.next i) j)
    (hj : t.entryAt j = some f) (hkey : f.key = key) (value : ν) :
    Written live t key value ((t.overwrite j value).exchange j i) := by
  have hflive : f.stale live = false := by simp [Entry.stale_eq hkey, hlive]
  have hnew := Entry.with_value (h.hash_eq f (mem_entries_of_entryAt hj)) hkey value
  have hij : j ≠ i := ne_of_stale he hs hj hflive
  have hat := entryAt_overwrite hj value
  have hoj : (t.overwrite j value).entryAt j = some (.of key value) := by rw [hat, if_pos rfl, hnew]
  have hoi : (t.overwrite j value).entryAt i = some e := by rw [hat, if_neg hij, he]
  have hlead_i : t.slots.Leads key.hash i := hp.leads (lt_of_entryAt he) (by simp [he])
  have hlead_j : t.slots.Leads e.hash j :=
    h.toSound.leads_on he hf (by simp [hj]) (h.led i e he)
  have hsound : ((t.overwrite j value).exchange j i).Sound :=
    (h.toSound.overwrite hj value).exchange hoj hoi hij (leads_overwrite hj value hlead_i)
      (leads_overwrite hj value hlead_j)
  have hto := (turnover_overwrite hj value).trans (turnover_exchange hoj hoi hij)
  rw [hnew] at hto
  refine ⟨hsound, by simp, by simp [Table.exchange, overwrite_eq hj], ⟨[f], hto, by simp [hkey]⟩, ?_⟩
  exact mem_entries_of_entryAt (i := i) (by rw [h.entryAt_moved he hij hj hkey, if_pos rfl])

/-- Cleaning starts at the stale entry that was moved, or at one that was not touched. -/
theorem WellFormed.staleAt_anchor_moved (h : t.WellFormed) {i j : Nat} {e f : Entry ν}
    (he : t.entryAt i = some e) (hs : e.stale live = true)
    (hf : Cyclic.First t.capacity (fun x => (t.entryAt x).all (·.belongs live key)) (t.next i) j)
    (hj : t.entryAt j = some f) (hb : f.belongs live key = true) (value : ν) :
    ((t.overwrite j value).exchange j i).staleAt live (t.anchor live key i) = true := by
  obtain ⟨hkey, hflive⟩ := Entry.belongs_iff.1 hb
  have hij : j ≠ i := ne_of_stale he hs hj hflive
  have hx := h.entryAt_moved he hij hj hkey value
  obtain ⟨hni, hstart⟩ := h.toSound.anchor_of_own he hs hf hj hb
  rw [staleAt_iff]
  rcases hstart with heq | hst
  · exact ⟨e, by rw [heq, hx, if_neg (Ne.symm hij), if_pos rfl], hs⟩
  · obtain ⟨g, hg, hgs⟩ := staleAt_iff.1 hst
    have hnj : j ≠ t.anchor live key i := ne_of_stale hg hgs hj hflive
    exact ⟨g, by rw [hx, if_neg (Ne.symm hni), if_neg hnj, hg], hgs⟩

theorem WellFormed.takeOver_own (h : t.WellFormed) (hlive : live key = true) {i j : Nat} {e f : Entry ν}
    (he : t.entryAt i = some e) (hs : e.stale live = true) (hp : t.Passed live key i)
    (hf : Cyclic.First t.capacity (fun x => (t.entryAt x).all (·.belongs live key)) (t.next i) j)
    (hj : t.entryAt j = some f) (hb : f.belongs live key = true) (value : ν) :
    Stored live t key value (((t.overwrite j value).exchange j i).clean live (t.anchor live key i)) := by
  have hw := h.written_moved hlive he hs hp hf hj (Entry.belongs_iff.1 hb).1 value
  have hlen : ((t.overwrite j value).exchange j i).len = t.len := by simp [Table.exchange, overwrite_eq hj]
  obtain ⟨g, hg, hgs⟩ := staleAt_iff.1 (h.staleAt_anchor_moved he hs hf hj hb value)
  exact hw.clean h hlive hlen hg hgs

/-- A new entry has taken the place of the stale one. -/
theorem WellFormed.written_replace (h : t.WellFormed) {i : Nat} {e : Entry ν} (he : t.entryAt i = some e)
    (hs : e.stale live = true) (hp : t.Passed live key i) (habsent : ∀ f ∈ t.entries, f.key ≠ key) (value : ν) :
    Written live t key value (t.replace i (.of key value)) := by
  have hi := lt_of_entryAt he
  have hsound : (t.replace i (.of key value)).Sound :=
    h.toSound.replace he habsent (hp.leads hi (by simp [he]))
  refine ⟨hsound, by simp, rfl, ⟨[e], turnover_replace he _, by simp [hs]⟩, ?_⟩
  exact mem_entries_of_entryAt (i := i) (by rw [entryAt_replace hi, if_pos rfl])

/-- Cleaning starts at another stale entry, if at all. -/
theorem WellFormed.staleAt_anchor_replace (h : t.WellFormed) {i : Nat} (hi : i < t.capacity)
    (habsent : ∀ f ∈ t.entries, f.key ≠ key) (hni : t.anchor live key i ≠ i) (value : ν) :
    (t.replace i (.of key value)).staleAt live (t.anchor live key i) = true := by
  have hst : t.staleAt live (t.anchor live key i) = true := by
    rcases h.toSound.anchor_cases live key hi with ⟨-, hst⟩ | ⟨k, hfk, heq⟩
    · exact hst
    · cases hk : t.entryAt k with
      | none => exact absurd (by simpa [hk] using heq) hni
      | some g =>
        rw [hk, Option.isSome_some, if_pos rfl] at heq
        have hsat := hfk.sat
        simp only [hk, Option.all_some, Bool.or_eq_true] at hsat
        rcases hsat with hg | hg
        · exact absurd (Entry.belongs_iff.1 hg).1 (habsent g (mem_entries_of_entryAt hk))
        · exact heq ▸ staleAt_iff.2 ⟨g, hk, hg⟩
  obtain ⟨g, hg, hgs⟩ := staleAt_iff.1 hst
  exact staleAt_iff.2 ⟨g, by rw [entryAt_replace hi, if_neg (Ne.symm hni), hg], hgs⟩

theorem WellFormed.takeOver_new (h : t.WellFormed) (hlive : live key = true) {i : Nat} {e : Entry ν}
    (he : t.entryAt i = some e) (hs : e.stale live = true) (hp : t.Passed live key i)
    (habsent : ∀ f ∈ t.entries, f.key ≠ key) (value : ν) :
    Stored live t key value
      (if t.anchor live key i = i then t.replace i (.of key value)
        else (t.replace i (.of key value)).clean live (t.anchor live key i)) := by
  have hw := h.written_replace he hs hp habsent value
  split
  · exact hw.stored h h.len_lt
  · rename_i hni
    obtain ⟨g, hg, hgs⟩ := staleAt_iff.1 (h.staleAt_anchor_replace (lt_of_entryAt he) habsent hni value)
    exact hw.clean h hlive rfl hg hgs

/-- Either the entry of `key` stands behind the stale slot, or there is none. -/
theorem WellFormed.takeOver_cases (h : t.WellFormed) (hlive : live key = true) {i : Nat} {e : Entry ν}
    (he : t.entryAt i = some e) (hs : e.stale live = true) (hp : t.Passed live key i) (value : ν) :
    (∃ j f, Cyclic.First t.capacity (fun x => (t.entryAt x).all (·.belongs live key)) (t.next i) j ∧
      t.entryAt j = some f ∧ f.belongs live key = true ∧
      t.takeOver live key value i =
        ((t.overwrite j value).exchange j i).clean live (t.anchor live key i)) ∨
    (∀ f ∈ t.entries, f.key ≠ key) ∧
      t.takeOver live key value i =
        if t.anchor live key i = i then t.replace i (.of key value)
        else (t.replace i (.of key value)).clean live (t.anchor live key i) := by
  obtain ⟨j, hseek, hf⟩ := h.seek (p := (·.all (·.belongs live key))) rfl (next_lt (lt_of_entryAt he))
  unfold Table.takeOver
  rw [hseek]
  cases hj : t.entryAt j with
  | none =>
    right
    refine ⟨hp.absent_beyond h hlive he hs hf hj, ?_⟩
    simp only [Option.filter_some, hj, Option.isSome_none, Bool.false_eq_true, if_false]
  | some f =>
    left
    have hb := hf.sat
    simp only [hj, Option.all_some] at hb
    refine ⟨j, f, hf, hj, hb, ?_⟩
    simp only [Option.filter_some, hj, Option.isSome_some, if_true]

theorem WellFormed.takeOver (h : t.WellFormed) (hlive : live key = true) {i : Nat} {e : Entry ν}
    (he : t.entryAt i = some e) (hs : e.stale live = true) (hp : t.Passed live key i) (value : ν) :
    Stored live t key value (t.takeOver live key value i) := by
  rcases h.takeOver_cases hlive he hs hp value with ⟨j, f, hf, hj, hb, heq⟩ | ⟨habsent, heq⟩
  · rw [heq]
    exact h.takeOver_own hlive he hs hp hf hj hb value
  · rw [heq]
    exact h.takeOver_new hlive he hs hp habsent value

/-! ## Insertion -/

/-- The entry of `key` has a new value. -/
theorem WellFormed.written_overwrite (h : t.WellFormed) (live : Liveness) {i : Nat} {e : Entry ν}
    (he : t.entryAt i = some e) (hkey : e.key = key) (value : ν) : Written live t key value (t.overwrite i value) := by
  have hnew := Entry.with_value (h.hash_eq e (mem_entries_of_entryAt he)) hkey value
  have hto := turnover_overwrite he value
  rw [hnew] at hto
  refine ⟨h.toSound.overwrite he value, by simp, by simp [overwrite_eq he], ⟨[e], hto, by simp [hkey]⟩, ?_⟩
  exact mem_entries_of_entryAt (i := i) (by rw [entryAt_overwrite he, if_pos rfl, hnew])

/-- Storing a value for a live identity. -/
theorem WellFormed.insert (h : t.WellFormed) (hlive : live key = true) (value : ν) :
    Stored live t key value (t.insert live key value).1 := by
  obtain ⟨i, hseek, hi, hp, hkind⟩ := h.seek_insert live key
  unfold Table.insert
  rw [hseek]
  cases he : t.entryAt i with
  | none => simpa [he] using h.fill hlive hi he hp value
  | some e =>
    simp only [he]
    split
    · rename_i hb
      have hw := h.written_overwrite live he (Entry.belongs_iff.1 hb).1 value
      refine hw.stored h ?_
      simpa [overwrite_eq he] using h.len_lt
    · rename_i hb
      exact h.takeOver hlive he ((hkind e he).resolve_left hb) hp value

end PerThread.Table
