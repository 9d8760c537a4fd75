import PerThread.Proofs.History.Geometry
import PerThread.Proofs.Table.Scanning

/-!
# When a store makes a table grow

A store fills a free slot, looks at the slots behind it, and makes room if the table is full and no look was a hit.
Making room drops every stale entry, and doubles the table if half of its slots are still in use. Three of the
decisions on the way are about what the store happens to come across: an entry of its own identity or a stale one
before the free slot, and a stale one shortly behind it. `Crowded` says that it comes across none of them, and that
the table is full.
-/

namespace PerThread

variable {ν : Type} {live : Liveness} {t u w : Table ν} {key : Identity} {i : Nat}

namespace Table

/-! ## What is live -/

/-- Cleaning drops nothing that is live. -/
theorem Cleaned.liveCount_eq {out : List (Entry ν)} (h : t.Cleaned live out u) :
    u.liveCount live = t.liveCount live := by
  have hcount := h.turnover.entries.countP_eq (!·.stale live)
  have hout : out.countP (!·.stale live) = 0 := by
    rw [List.countP_eq_zero]
    intro e he
    simp [h.stale e he]
  rw [List.append_nil, List.countP_append, hout, Nat.zero_add] at hcount
  exact hcount.symm

/-- A sweep leaves as many entries as are live. -/
theorem Sound.len_sweep (live : Liveness) (h : t.Sound) : (t.sweep live).len = t.liveCount live := by
  obtain ⟨out, hc, hclean⟩ := h.sweep live
  rw [hc.sound.len_eq, ← liveCount_eq_length hclean, hc.liveCount_eq]

theorem liveCount_occupy {e : Entry ν} (hi : i < t.capacity) (hfree : t.entryAt i = none)
    (hlive : e.stale live = false) : (t.occupy i e).liveCount live = t.liveCount live + 1 := by
  have hcount := (turnover_occupy hi hfree e).entries.countP_eq (!·.stale live)
  simp only [List.countP_append, List.countP_singleton, List.nil_append, hlive] at hcount
  exact hcount.symm

/-- A live entry in a slot that was free does not change which slots are stale. -/
theorem staleAt_occupy {e : Entry ν} (hi : i < t.capacity) (hfree : t.entryAt i = none)
    (hlive : e.stale live = false) (x : Nat) : (t.occupy i e).staleAt live x = t.staleAt live x := by
  have hat : (t.occupy i e).entryAt x = if i = x then some e else t.entryAt x := Slots.entryAt_put hi (some e) x
  unfold staleAt
  rw [hat]
  by_cases hix : i = x
  · subst hix
    simp [hfree, hlive]
  · simp [hix]

theorem next_occupy (t : Table ν) (i : Nat) (e : Entry ν) : (t.occupy i e).next = t.next := by
  funext x
  simp [next]

/-! ## Making room -/

/-- What a table that makes room looks like afterwards, and what is reported. -/
theorem Sound.makeRoom_spec (live : Liveness) (h : w.Sound) :
    (∀ e ∈ (w.makeRoom live).1.entries, e.stale live = false) ∧ (w.makeRoom live).1.len = w.liveCount live ∧
    (w.threshold - w.threshold / 4 ≤ w.liveCount live →
      (w.makeRoom live).1.capacity = 2 * w.capacity ∧
      (w.makeRoom live).2 = .resized w.capacity (2 * w.capacity) (w.liveCount live)) ∧
    (¬ w.threshold - w.threshold / 4 ≤ w.liveCount live →
      (w.makeRoom live).1.capacity = w.capacity ∧
      (w.makeRoom live).2 = .roomReclaimed w.capacity (w.liveCount live)) := by
  have hlen := h.len_sweep live
  obtain ⟨out, hc, hclean⟩ := h.sweep live
  have hcap := hc.capacity_eq
  have hthr := hc.threshold_eq
  obtain ⟨-, hto, hgrown⟩ := h.grow_sweep live
  unfold makeRoom
  dsimp only
  rw [hthr, hlen]
  by_cases hgrow : w.threshold - w.threshold / 4 ≤ w.liveCount live
  · rw [if_pos hgrow]
    refine ⟨fun e he => hclean e (hto.mem_iff.1 he), hgrown.trans hlen, fun _ => ?_, fun hno => absurd hgrow hno⟩
    constructor
    · rw [capacity_grow, hcap]
    · dsimp only
      rw [capacity_grow, hcap, hgrown, hlen]
  · rw [if_neg hgrow]
    refine ⟨hclean, hlen, fun hyes => absurd hyes hgrow, fun _ => ?_⟩
    constructor
    · exact hcap
    · rw [hcap]

/-! ## The way to the decision -/

/-- A store for `key`, whose search would come to the free slot `i` first, fills that slot of a full table and comes
across nothing on the way that tells it to do something else than make room. -/
structure Crowded (live : Liveness) (t : Table ν) (key : Identity) (i : Nat) : Prop where
  absent : t.valueOf? key = none
  way : ∀ x < t.capacity, Cyclic.dist t.capacity (t.slots.home key.hash) x <
    Cyclic.dist t.capacity (t.slots.home key.hash) i → t.staleAt live x = false
  behind : ∀ d ≤ (t.len + 1).log2, t.staleAt live (t.next^[d + 1] i) = false
  full : t.threshold ≤ t.len + 1

/-- A store either fills the first free slot, or ends before it without a change of the capacity. -/
theorem WellFormed.insert_cases (h : t.WellFormed) (live : Liveness) (key : Identity) (value : ν) :
    ∃ i, Cyclic.First t.capacity (fun x => (t.entryAt x).isNone) (t.slots.home key.hash) i ∧
      (t.Passed live key i ∧ t.insert live key value = t.fill live (.of key value) i ∨
        ¬ t.Crowded live key i ∧ (t.insert live key value).1.capacity = t.capacity ∧
          (t.insert live key value).2 = none) := by
  have hhome := h.toSound.home_lt key.hash
  obtain ⟨j, hseek, hj, hp, hkind⟩ := h.toSound.seek_insert live key
  unfold Table.insert
  rw [hseek]
  cases he : t.entryAt j with
  | none =>
    refine ⟨j, ⟨hj, by simp [he], ?_⟩, Or.inl ⟨hp, by simp [he]⟩⟩
    intro x hx hd
    obtain ⟨e, hx', -⟩ := hp x hx hd
    simp [hx']
  | some e =>
    obtain ⟨i, -, hf⟩ := h.toSound.seek (p := Option.isNone) rfl hhome
    have hfree : t.entryAt i = none := by simpa using hf.sat
    refine ⟨i, hf, Or.inr ⟨?_, ?_, ?_⟩⟩
    · intro hcrowded
      rcases hkind e he with hb | hs
      · have hvalue := valueOf?_eq_some h.nodup (mem_entries_of_entryAt he) (Entry.belongs_iff.1 hb).1
        simp [hcrowded.absent] at hvalue
      · -- the stale entry stands before the free slot
        have hbefore : Cyclic.dist t.capacity (t.slots.home key.hash) j <
            Cyclic.dist t.capacity (t.slots.home key.hash) i := by
          by_contra hge
          rcases Nat.lt_or_eq_of_le (Nat.le_of_not_lt hge) with hlt | heq
          · obtain ⟨f, hf', -⟩ := hp i hf.lt hlt
            simp [hfree] at hf'
          · rw [Cyclic.dist_inj hhome hf.lt hj heq, he] at hfree
            cases hfree
        have hway := hcrowded.way j hj hbefore
        simp [staleAt, he, hs] at hway
    · simp only [he]
      by_cases hb : e.belongs live key = true
      · simp [hb]
      · simp [hb]
    · simp only [he]
      by_cases hb : e.belongs live key = true
      · simp [hb]
      · simp [hb]

/-- What filling the free slot comes to. -/
theorem WellFormed.fill_cases (h : t.WellFormed) (hlive : live key = true) (hi : i < t.capacity)
    (hfree : t.entryAt i = none) (hp : t.Passed live key i) (value : ν) :
    t.Crowded live key i ∧ t.fill live (.of key value) i =
      (((t.occupy i (.of key value)).makeRoom live).1, some ((t.occupy i (.of key value)).makeRoom live).2) ∨
    ¬ t.Crowded live key i ∧ (t.fill live (.of key value) i).1.capacity = t.capacity ∧
      (t.fill live (.of key value) i).2 = none := by
  have hw := h.written_occupy hi hfree hp value
  have hlen : (t.occupy i (.of key value)).len = t.len + 1 := rfl
  have hthr : (t.occupy i (.of key value)).threshold = t.threshold := rfl
  have hstale : (Entry.of key value).stale live = false := by simp [Entry.of, Entry.stale, hlive]
  have hhits := hw.sound.scan_hits_iff live i (t.occupy i (.of key value)).len
  have hsame : ∀ x, (t.occupy i (.of key value)).staleAt live x = t.staleAt live x :=
    staleAt_occupy hi hfree hstale
  simp only [next_occupy, hsame] at hhits
  obtain ⟨out, hc, hnone, -⟩ := hw.sound.scan live i (t.occupy i (.of key value)).len
  rw [fill_eq]
  dsimp only
  by_cases hroom : ((t.occupy i (.of key value)).scan live i (t.occupy i (.of key value)).len).hits = 0 ∧
      ((t.occupy i (.of key value)).scan live i (t.occupy i (.of key value)).len).table.len ≥
        ((t.occupy i (.of key value)).scan live i (t.occupy i (.of key value)).len).table.threshold
  · rw [if_pos hroom]
    obtain ⟨hzero, hge⟩ := hroom
    rw [hnone hzero] at hge ⊢
    refine Or.inl ⟨⟨valueOf?_eq_none_iff.2 (hp.absent h hi hfree), ?_, hhits.1 hzero, hge⟩, rfl⟩
    intro x hx hd
    obtain ⟨e, he, hs, -⟩ := hp x hx hd
    simp [staleAt, he, hs]
  · rw [if_neg hroom]
    refine Or.inr ⟨?_, hc.capacity_eq.trans hw.capacity_eq, rfl⟩
    intro hcrowded
    have hzero := hhits.2 hcrowded.behind
    refine hroom ⟨hzero, ?_⟩
    rw [hnone hzero]
    exact hcrowded.full

/-- A store makes room if the table is crowded, and otherwise leaves the capacity as it is. -/
theorem WellFormed.insert_of_crowded (h : t.WellFormed) (hlive : live key = true) (value : ν) :
    ∃ i, Cyclic.First t.capacity (fun x => (t.entryAt x).isNone) (t.slots.home key.hash) i ∧
      (t.Crowded live key i ∧ t.insert live key value =
          (((t.occupy i (.of key value)).makeRoom live).1, some ((t.occupy i (.of key value)).makeRoom live).2) ∧
          (t.occupy i (.of key value)).Sound ∧
          (t.occupy i (.of key value)).liveCount live = t.liveCount live + 1 ∨
        ¬ t.Crowded live key i ∧ (t.insert live key value).1.capacity = t.capacity ∧
          (t.insert live key value).2 = none) := by
  obtain ⟨i, hf, hcases⟩ := h.insert_cases live key value
  have hfree : t.entryAt i = none := by simpa using hf.sat
  refine ⟨i, hf, ?_⟩
  rcases hcases with ⟨hp, heq⟩ | hother
  · rw [heq]
    rcases h.fill_cases hlive hf.lt hfree hp value with ⟨hcrowded, hfill⟩ | hother
    · have hcount : (t.occupy i (.of key value)).liveCount live = t.liveCount live + 1 :=
        liveCount_occupy hf.lt hfree (by simp [Entry.of, Entry.stale, hlive])
      exact Or.inl ⟨hcrowded, hfill, (h.written_occupy hf.lt hfree hp value).sound, hcount⟩
    · exact Or.inr hother
  · exact Or.inr hother

end Table

namespace Scene

variable {s : Scene ν}

/-- A store changes the number of slots if the table is crowded and would be at least half full of live entries, the
new one included; it doubles then. A crowded table is rid of everything stale in either case, and reports which of
the two it was. In all other cases the number of slots stays, and nothing is reported. -/
theorem Reachable.growth (hs : s.Reachable) (hlive : s.holders.live key = true) (value : ν) :
    ∃ i u event,
      Cyclic.First s.table.capacity (fun x => (s.table.entryAt x).isNone) (s.table.slots.home key.hash) i ∧
      s.table.insert s.holders.live key value = (u, event) ∧
      (u.capacity ≠ s.table.capacity ↔ s.table.Crowded s.holders.live key i ∧
        s.table.capacity / 2 ≤ s.table.liveCount s.holders.live + 1) ∧
      (u.capacity ≠ s.table.capacity → u.capacity = 2 * s.table.capacity) ∧
      (s.table.Crowded s.holders.live key i →
        (∀ e ∈ u.entries, e.stale s.holders.live = false) ∧
        (s.table.capacity / 2 ≤ s.table.liveCount s.holders.live + 1 →
          event = some (.resized s.table.capacity (2 * s.table.capacity) u.len)) ∧
        (¬ s.table.capacity / 2 ≤ s.table.liveCount s.holders.live + 1 →
          event = some (.roomReclaimed s.table.capacity u.len))) ∧
      (¬ s.table.Crowded s.holders.live key i → u.capacity = s.table.capacity ∧ event = none) ∧
      s.table.threshold - s.table.threshold / 4 = s.table.capacity / 2 ∧
      ∀ c : Nat, c.isPowerOfTwo → 16 ≤ c → Table.thresholdFor c - Table.thresholdFor c / 4 = c / 2 := by
  have h := hs.coherent.wellFormed
  have hquarter (c : Nat) (hc : c.isPowerOfTwo) (h16 : 16 ≤ c) := Table.thresholdFor_sub_quarter hc h16
  have hhalf : s.table.threshold - s.table.threshold / 4 = s.table.capacity / 2 := by
    rw [h.threshold_eq]
    exact hquarter _ h.power h.initial_le
  have hpos : 16 ≤ s.table.capacity := h.initial_le
  obtain ⟨i, hf, hcases⟩ := h.insert_of_crowded hlive value
  generalize s.table.insert s.holders.live key value = outcome at hcases ⊢
  obtain ⟨u, event⟩ := outcome
  refine ⟨i, u, event, hf, rfl, ?_⟩
  rcases hcases with ⟨hcrowded, heq, hsound, hcount⟩ | ⟨hnot, hcap, hevent⟩
  · obtain ⟨hclean, hlen, hgrow, hkeep⟩ := hsound.makeRoom_spec s.holders.live
    have hthr : (s.table.occupy i (.of key value)).threshold = s.table.threshold := rfl
    cases heq
    rw [hthr, hhalf, hcount, Table.capacity_occupy] at hgrow hkeep
    rw [hcount] at hlen
    by_cases hfull : s.table.capacity / 2 ≤ s.table.liveCount s.holders.live + 1
    · obtain ⟨hdouble, hreport⟩ := hgrow hfull
      refine ⟨?_, fun _ => hdouble, fun _ => ⟨hclean, ?_, fun hno => absurd hfull hno⟩,
        fun hno => absurd hcrowded hno, hhalf, hquarter⟩
      · rw [hdouble]
        exact ⟨fun _ => ⟨hcrowded, hfull⟩, fun _ => by omega⟩
      · intro _
        rw [hlen, hreport]
    · obtain ⟨hsame, hreport⟩ := hkeep hfull
      refine ⟨?_, fun hne => absurd hsame hne, fun _ => ⟨hclean, fun hyes => absurd hyes hfull, ?_⟩,
        fun hno => absurd hcrowded hno, hhalf, hquarter⟩
      · exact ⟨fun hne => absurd hsame hne, fun hboth => absurd hboth.2 hfull⟩
      · intro _
        rw [hlen, hreport]
  · refine ⟨?_, fun hne => absurd hcap hne, fun hyes => absurd hyes hnot, fun _ => ⟨hcap, hevent⟩, hhalf, hquarter⟩
    exact ⟨fun hne => absurd hcap hne, fun hboth => absurd hboth.1 hnot⟩

/-- Nine identities fill slots 0 to 8, the fourth has been let go of, and the store of a tenth belongs into slot 9. It
does not come across the stale entry. The table is full with it, drops the stale entry, and doubles. -/
theorem growth_past_stale :
    ∃ (s : Scene Nat) (u : Table Nat), s.Reachable ∧ s.table.capacity = 16 ∧
      s.table.staleAt s.holders.live 3 = true ∧
      s.table.insert s.holders.live ⟨9, 9⟩ 29 = (u, some (.resized 16 32 u.len)) ∧ u.capacity = 32 ∧
      ∀ e ∈ u.entries, e.stale s.holders.live = false := by
  have hs := (reachable_first 0 20).run [.make 1, .set ⟨1, 1⟩ 21, .make 2, .set ⟨2, 2⟩ 22, .make 3,
    .set ⟨3, 3⟩ 23, .make 4, .set ⟨4, 4⟩ 24, .make 5, .set ⟨5, 5⟩ 25, .make 6, .set ⟨6, 6⟩ 26, .make 7,
    .set ⟨7, 7⟩ 27, .make 8, .set ⟨8, 8⟩ 28, .forget ⟨3, 3⟩, .make 9] rfl
  obtain ⟨i, u, event, hfirst, hins, hiff, hdouble, hreport, -⟩ := @Reachable.growth _ ⟨9, 9⟩ _ hs rfl 29
  have hi : i = 9 := by
    have hhere : Cyclic.dist 16 9 i ≤ Cyclic.dist 16 9 9 := hfirst.le (x := 9) (by decide) rfl
    exact Cyclic.dist_inj (n := 16) (by decide) hfirst.lt (by decide) (Nat.le_zero.1 hhere)
  subst hi
  have hgrows := hiff.2 ⟨⟨rfl, by decide, by decide, by decide⟩, by decide⟩
  obtain ⟨hclean, hresized, -⟩ := hreport (hiff.1 hgrows).1
  refine ⟨_, u, hs, rfl, rfl, ?_, hdouble hgrows, hclean⟩
  rw [hins, hresized (hiff.1 hgrows).2]
  rfl

end Scene

end PerThread
