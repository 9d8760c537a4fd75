import PerThread.Proofs.Table.TakeOver

/-!
# A run cleared of stale entries

The run of a slot is the block of occupied slots around it. Taking over a stale slot for an identity leaves no
stale entry anywhere in the run of that slot. The cleaning that follows starts at its anchor, and the point is
where that lies: no other stale slot of the run comes before it, and neither does the slot that the identity's
own entry moved out of. Expunging the anchor reaches the end of the run, so it meets all of them. If there is no
anchor, then the slot taken over was the only stale one.

"Before" and "behind" are meant along the ring cut open behind a free slot, in which a run is never torn apart.
-/

namespace PerThread.Table

open Cyclic (rank)

variable {ν : Type} {live : Liveness} {t u w : Table ν} {key : Identity} {value : ν} {i x z : Nat} {e : Entry ν}

/-! ## Runs -/

abbrev Linked (t : Table ν) (i x : Nat) : Prop := t.slots.Linked i x

/-- Slot `x` belongs to the run of slot `i`: in one direction or the other, the slots between are occupied. -/
def SameRun (t : Table ν) (i x : Nat) : Prop := x < t.capacity ∧ (t.Linked i x ∨ t.Linked x i)

theorem linked_iff_rank (hz : z < t.capacity) (hfree : t.entryAt z = none) (hi : i < t.capacity)
    (hx : x < t.capacity) :
    t.Linked i x ↔
      rank t.capacity z i ≤ rank t.capacity z x ∧
      ∀ y < t.capacity, rank t.capacity z i ≤ rank t.capacity z y →
        rank t.capacity z y ≤ rank t.capacity z x → (t.entryAt y).isSome :=
  Slots.linked_iff_rank hz hfree hi hx

theorem linked_self (h : t.entryAt i = some e) : t.Linked i i := by
  have hi : i < t.slots.size := lt_of_entryAt h
  intro y hy hd
  have hyi : i = y := Cyclic.dist_inj hi hi hy (by rw [Cyclic.dist_self] at hd ⊢; omega)
  rw [← hyi, show t.slots.entryAt i = some e from h]
  rfl

/-- The last link of a chain. -/
theorem linked_iff_prev (hi : i < t.capacity) (h : t.entryAt x = some e) (hne : i ≠ x) :
    t.Linked i x ↔ t.Linked i (t.prev x) := by
  have hx : x < t.slots.size := lt_of_entryAt h
  have hp : t.prev x < t.slots.size := Cyclic.prev_lt hx
  have hstep : Cyclic.dist t.slots.size i x = Cyclic.dist t.slots.size i (t.prev x) + 1 := by
    have hi' : i < t.slots.size := hi
    show _ = Cyclic.dist t.slots.size i (Cyclic.prev t.slots.size x) + 1
    unfold Cyclic.dist Cyclic.prev
    grind
  constructor
  · intro hlink y hy hd
    exact hlink y hy (by omega)
  · intro hlink y hy hd
    by_cases hyx : Cyclic.dist t.slots.size i y = Cyclic.dist t.slots.size i x
    · rw [Cyclic.dist_inj hi hy hx hyx, show t.slots.entryAt x = some e from h]
      rfl
    · exact hlink y hy (by omega)

/-- A slot is not linked to the one before it, as that would take all slots. -/
theorem not_linked_prev (hz : z < t.capacity) (hfree : t.entryAt z = none) (hi : i < t.capacity) :
    ¬ t.Linked i (t.prev i) := by
  intro hlink
  have hall : Cyclic.dist t.slots.size i z ≤ Cyclic.dist t.slots.size i (t.prev i) := by
    have hi' : i < t.slots.size := hi
    have hz' : z < t.slots.size := hz
    show _ ≤ Cyclic.dist t.slots.size i (Cyclic.prev t.slots.size i)
    unfold Cyclic.dist Cyclic.prev
    grind
  have := hlink z hz hall
  rw [show t.slots.entryAt z = none from hfree] at this
  cases this

/-! ## The anchor -/

/-- Looking backwards finds the earliest stale slot that is linked to where it began. -/
theorem earliestStale_spec (live : Liveness) (hz : z < t.capacity) (hfree : t.entryAt z = none) {fuel : Nat} (hx : x < t.capacity)
    (hfuel : (t.entryAt x).isSome → rank t.capacity z x + 1 < fuel) (hpos : 0 < fuel) (best : Nat) :
    (t.earliestStale live fuel x best = some best ∧
      ∀ y < t.capacity, t.Linked y x → t.staleAt live y = false) ∨
    ∃ b, t.earliestStale live fuel x best = some b ∧ b < t.capacity ∧ t.Linked b x ∧ t.staleAt live b = true ∧
      ∀ y < t.capacity, t.Linked y x → t.staleAt live y = true →
        rank t.capacity z b ≤ rank t.capacity z y := by
  induction fuel generalizing x best with
  | zero => omega
  | succ fuel ih =>
    unfold earliestStale
    cases he : t.entryAt x with
    | none =>
      left
      refine ⟨rfl, ?_⟩
      intro y hy hlink
      have := hlink x hx (Nat.le_refl _)
      rw [show t.slots.entryAt x = none from he] at this
      cases this
    | some e =>
      have hp : t.prev x < t.capacity := Cyclic.prev_lt hx
      have hfuel' := hfuel (by rw [he]; rfl)
      have hstep : (t.entryAt (t.prev x)).isSome → rank t.capacity z (t.prev x) + 1 = rank t.capacity z x :=
        Slots.rank_prev hz hfree hx
      have hself := linked_self he
      rcases ih hp (fun hocc => by have := hstep hocc; omega) (by omega) (if e.stale live then x else best) with
        ⟨hb, hnone⟩ | ⟨b, hb, hlt, hlink, hstale, hfirst⟩
      · by_cases hs : e.stale live = true
        · -- `x` itself is the earliest
          right
          rw [if_pos hs] at hb
          refine ⟨x, by simpa [hs] using hb, hx, hself, staleAt_iff.2 ⟨e, he, hs⟩, ?_⟩
          intro y hy hly hsy
          by_cases hyx : y = x
          · exact Nat.le_of_eq (by rw [hyx])
          · have := hnone y hy ((linked_iff_prev hy he hyx).1 hly)
            simp [this] at hsy
        · left
          rw [if_neg hs] at hb
          refine ⟨by simpa [hs] using hb, ?_⟩
          intro y hy hly
          by_cases hyx : y = x
          · rw [hyx, Bool.eq_false_iff]
            intro hst
            obtain ⟨f, hf, hfs⟩ := staleAt_iff.1 hst
            rw [he] at hf
            cases hf
            exact hs hfs
          · exact hnone y hy ((linked_iff_prev hy he hyx).1 hly)
      · right
        have hbx : b ≠ x := by
          rintro rfl
          exact not_linked_prev hz hfree hx hlink
        have hlx := (linked_iff_prev hlt he hbx).2 hlink
        refine ⟨b, hb, hlt, hlx, hstale, ?_⟩
        intro y hy hly hsy
        by_cases hyx : y = x
        · rw [hyx]
          exact ((linked_iff_rank hz hfree hlt hx).1 hlx).1
        · exact hfirst y hy ((linked_iff_prev hy he hyx).1 hly) hsy

/-- Where the anchor of the stale slot `i` lies: in the run or behind it, and not behind any other slot of the
run that is stale, nor behind the one that holds the entry of `key`. -/
structure Anchored (live : Liveness) (t : Table ν) (key : Identity) (z i a : Nat) : Prop where
  place : t.Linked a i ∨ rank t.capacity z i < rank t.capacity z a
  before : ∀ x < t.capacity, t.Linked x i → x ≠ i → t.staleAt live x = true →
    a ≠ i ∧ rank t.capacity z a ≤ rank t.capacity z x
  ahead : ∀ x < t.capacity, t.Linked i x → x ≠ i →
    (t.entryAt x).any (fun f => f.belongs live key || f.stale live) = true →
    a ≠ i ∧ rank t.capacity z a ≤ rank t.capacity z x

theorem Sound.anchored (h : t.Sound) (live : Liveness) (key : Identity) (hz : z < t.capacity)
    (hfree : t.entryAt z = none) (he : t.entryAt i = some e) :
    Anchored live t key z i (t.anchor live key i) := by
  have hi := lt_of_entryAt he
  have hp : t.prev i < t.capacity := Cyclic.prev_lt hi
  have hself := linked_self he
  have hnext : rank t.capacity z (t.next i) = rank t.capacity z i + 1 := Slots.rank_next hz hfree he
  have hprev {x : Nat} (hx : x < t.capacity) (hlink : t.Linked x i) (hne : x ≠ i) : t.Linked x (t.prev i) :=
    (linked_iff_prev hx he hne).1 hlink
  have hlater {x : Nat} (hx : x < t.capacity) (hlink : t.Linked i x) (hne : x ≠ i) :
      rank t.capacity z i < rank t.capacity z x := by
    have hle := ((linked_iff_rank hz hfree hi hx).1 hlink).1
    have hneq : rank t.capacity z i ≠ rank t.capacity z x := fun heq => hne (Cyclic.rank_inj hz hi hx heq).symm
    omega
  have hfuel : (t.entryAt (t.prev i)).isSome → rank t.capacity z (t.prev i) + 1 < t.capacity := by
    intro hocc
    have hstep : rank t.capacity z (t.prev i) + 1 = rank t.capacity z i := Slots.rank_prev hz hfree hi hocc
    rw [hstep]
    exact Cyclic.rank_lt z hi
  rcases earliestStale_spec live hz hfree hp hfuel (by omega) i with
    ⟨hb, hnone⟩ | ⟨b, hb, hlt, hlink, hstale, hfirst⟩
  · -- nothing stale leads up to `i`: the anchor is the next slot of interest, if it comes before a free one
    obtain ⟨k, hseek, hf⟩ :=
      h.seek (p := (·.all fun f => f.belongs live key || f.stale live)) rfl (next_lt hi)
    have hanchor : t.anchor live key i = if (t.entryAt k).isSome then k else i := by
      unfold anchor
      simp [hb, hseek]
    obtain ⟨hle, hbetween⟩ := hf.rank (next_lt hi) hz (by simp [hfree])
    rw [hanchor]
    refine ⟨?_, ?_, ?_⟩
    · by_cases hk : (t.entryAt k).isSome
      · rw [if_pos hk]
        right
        omega
      · rw [if_neg hk]
        exact Or.inl hself
    · intro x hx hlink hne hst
      have := hnone x hx (hprev hx hlink hne)
      simp [this] at hst
    · intro x hx hlink hne hint
      have hlt := hlater hx hlink hne
      have hkx : rank t.capacity z k ≤ rank t.capacity z x := by
        by_contra hgt
        have hno := hbetween x hx (by omega) (by omega)
        cases hox : t.entryAt x with
        | none => simp [hox] at hint
        | some f => simp_all
      have hocc := ((linked_iff_rank hz hfree hi hx).1 hlink).2 k hf.lt (by omega) hkx
      rw [if_pos hocc]
      refine ⟨?_, hkx⟩
      rintro rfl
      omega
  · have hbi : b ≠ i := by
      rintro rfl
      exact not_linked_prev hz hfree hi hlink
    have hanchor : t.anchor live key i = b := by
      unfold anchor
      simp [hb, hbi]
    have hli := (linked_iff_prev hlt he hbi).2 hlink
    rw [hanchor]
    refine ⟨Or.inl hli, ?_, ?_⟩
    · intro x hx hlx hne hst
      exact ⟨hbi, hfirst x hx (hprev hx hlx hne) hst⟩
    · intro x hx hlx hne _
      have hle := ((linked_iff_rank hz hfree hlt hi).1 hli).1
      have hlt := hlater hx hlx hne
      exact ⟨hbi, by omega⟩

/-! ## Cleaning from the anchor -/

/-- Expunging from `a` on and scanning behind leaves nothing stale up to the next free slot. -/
theorem Sound.clean_spec (h : w.Sound) {a : Nat} (hst : w.staleAt live a = true) :
    ∃ out r, w.Cleaned live out (w.clean live a) ∧ r < w.capacity ∧ w.entryAt r = none ∧
      ∀ x < w.capacity, Cyclic.dist w.capacity a x < Cyclic.dist w.capacity a r →
        (w.clean live a).staleAt live x = false := by
  obtain ⟨g, hg, hgs⟩ := staleAt_iff.1 hst
  have hexp := h.expunge live hg
  have hc := hexp.cleaned hgs
  obtain ⟨out, hscan, -⟩ := hc.sound.scan live (w.expunge live a).1 (w.expunge live a).2.capacity
  refine ⟨_, _, hc.trans hscan, hexp.lt, hexp.free, ?_⟩
  intro x hx hd
  rw [Bool.eq_false_iff]
  intro hs
  obtain ⟨f, hf, hfs⟩ := staleAt_iff.1 (hscan.staleAt_of_staleAt hs)
  have := hexp.clean x hx hd f hf
  simp [this] at hfs

/-- Cleaning from an anchor clears the whole run of `i`. What was written before may have changed entries, but
filled and freed no slot. -/
theorem clean_clears (hw : w.Sound) (hcap : w.capacity = t.capacity)
    (hocc : ∀ x, (w.entryAt x).isSome = (t.entryAt x).isSome) (hz : z < t.capacity) (hfree : t.entryAt z = none)
    (hi : i < t.capacity) {a : Nat} (hst : w.staleAt live a = true)
    (hplace : t.Linked a i ∨ rank t.capacity z i < rank t.capacity z a)
    (hfirst : ∀ x, t.SameRun i x → w.staleAt live x = true → rank t.capacity z a ≤ rank t.capacity z x) :
    ∃ out, w.Cleaned live out (w.clean live a) ∧
      ∀ x, t.SameRun i x → (w.clean live a).staleAt live x = false := by
  obtain ⟨out, r, hc, hr, hrfree, hclean⟩ := hw.clean_spec hst
  refine ⟨out, hc, ?_⟩
  intro x hrun
  rw [Bool.eq_false_iff]
  intro hs
  have hx := hrun.1
  have ha : a < t.capacity := by
    obtain ⟨g, hg, -⟩ := staleAt_iff.1 hst
    exact hcap ▸ lt_of_entryAt hg
  rw [hcap] at hr hclean
  have hrnone : (t.entryAt r).isSome = false := by rw [← hocc, hrfree]; rfl
  have hax := hfirst x hrun (hc.staleAt_of_staleAt hs)
  have hne : rank t.capacity z a ≠ rank t.capacity z r := by
    intro heq
    obtain ⟨g, hg, -⟩ := staleAt_iff.1 hst
    rw [Cyclic.rank_inj hz ha hr heq, hrfree] at hg
    cases hg
  -- the free slot `r` at which the walk ended is not between `a` and `x`, which are in one run
  have hout : rank t.capacity z r < rank t.capacity z a ∨ rank t.capacity z x < rank t.capacity z r := by
    by_contra hno
    have hbetween : (t.entryAt r).isSome := by
      by_cases hri : rank t.capacity z r ≤ rank t.capacity z i
      · have hlink := hplace.resolve_right (by omega)
        exact ((linked_iff_rank hz hfree ha hi).1 hlink).2 r hr (by omega) hri
      · rcases hrun.2 with hlink | hlink
        · exact ((linked_iff_rank hz hfree hi hx).1 hlink).2 r hr (by omega) (by omega)
        · have := ((linked_iff_rank hz hfree hx hi).1 hlink).1
          omega
    rw [hrnone] at hbetween
    cases hbetween
  have hdx := Cyclic.dist_eq_rank hz ha hx
  have hdr := Cyclic.dist_eq_rank hz ha hr
  have hxn := Cyclic.rank_lt z hx
  have := hclean x hx (by grind)
  simp [this] at hs

/-! ## Taking over -/

/-- A slot of the run that is stale, other than `i`, does not come before the anchor. -/
theorem Anchored.le_of_staleAt {a : Nat} (h : Anchored live t key z i a) (hrun : t.SameRun i x) (hne : x ≠ i)
    (hst : t.staleAt live x = true) : a ≠ i ∧ rank t.capacity z a ≤ rank t.capacity z x := by
  rcases hrun.2 with hlink | hlink
  · refine h.ahead x hrun.1 hlink hne ?_
    obtain ⟨f, hf, hfs⟩ := staleAt_iff.1 hst
    simp [hf, hfs]
  · exact h.before x hrun.1 hlink hne hst

/-- The stale entry has changed places with the entry of `key`, and is dropped where it stands now. -/
theorem WellFormed.clears_own (h : t.WellFormed) (hlive : live key = true) (he : t.entryAt i = some e)
    (hs : e.stale live = true) (hp : t.Passed live key i) {j : Nat} {f : Entry ν}
    (hf : Cyclic.First t.capacity (fun x => (t.entryAt x).all (·.belongs live key)) (t.next i) j)
    (hj : t.entryAt j = some f) (hb : f.belongs live key = true) (value : ν) :
    (((t.overwrite j value).exchange j i).clean live (t.anchor live key i)).capacity = t.capacity ∧
    (∀ x, t.SameRun i x → (((t.overwrite j value).exchange j i).clean live (t.anchor live key i)).staleAt
      live x = false) ∧
    ∀ g ∈ (((t.overwrite j value).exchange j i).clean live (t.anchor live key i)).entries, g.key ≠ e.key := by
  obtain ⟨z, hz, hfree⟩ := h.exists_free
  obtain ⟨hkey, hflive⟩ := Entry.belongs_iff.1 hb
  have hij : j ≠ i := ne_of_stale he hs hj hflive
  have hat := h.entryAt_moved he hij hj hkey value
  have hw := h.written_moved hlive he hs hp hf hj hkey value
  have hst := h.staleAt_anchor_moved he hs hf hj hb value
  have hanchored := h.toSound.anchored live key hz hfree he
  have hlink : t.Linked i j := h.toSound.linked_first he hf (by rw [hj]; rfl)
  generalize (t.overwrite j value).exchange j i = w at hat hw hst ⊢
  have hocc : ∀ x, (w.entryAt x).isSome = (t.entryAt x).isSome := by
    intro x
    rw [hat]
    by_cases hix : i = x
    · simp [← hix, he]
    · by_cases hjx : j = x
      · simp [← hjx, Ne.symm hij, hj]
      · simp [hix, hjx]
  have hahead := (hanchored.ahead j hf.lt hlink hij (by simp [hj, hb])).2
  obtain ⟨out, hc, hclear⟩ := clean_clears hw.sound hw.capacity_eq hocc hz hfree (lt_of_entryAt he) hst
    hanchored.place (by
      intro x hrun hsx
      obtain ⟨g, hg, hgs⟩ := staleAt_iff.1 hsx
      rw [hat] at hg
      by_cases hix : i = x
      · rw [if_pos hix] at hg
        cases hg
        simp [Entry.of, Entry.stale, hlive] at hgs
      · rw [if_neg hix] at hg
        by_cases hjx : j = x
        · exact hjx ▸ hahead
        · rw [if_neg hjx] at hg
          exact (hanchored.le_of_staleAt hrun (Ne.symm hix) (staleAt_iff.2 ⟨g, hg, hgs⟩)).2)
  refine ⟨hc.capacity_eq.trans hw.capacity_eq, hclear, ?_⟩
  intro g hg hgkey
  -- an entry of that identity would be the stale one, still in slot `j`
  obtain ⟨x, hx⟩ := mem_entries.1 hg
  have hgs : g.stale live = true := by
    rw [Entry.stale_eq hgkey]
    exact hs
  obtain ⟨y, hy, -, hstay⟩ := hc.moved x g hx
  rw [hstay hgs] at hy
  have hwj : w.entryAt j = some e := by rw [hat, if_neg (Ne.symm hij), if_pos rfl]
  have hxj : x = j := hw.sound.index_unique hy hwj hgkey
  have := hclear j ⟨hf.lt, Or.inl hlink⟩
  rw [← hxj, Bool.eq_false_iff] at this
  exact this (staleAt_iff.2 ⟨g, hx, hgs⟩)

/-- The stale entry was dropped at once, and the others are. -/
theorem WellFormed.clears_new (h : t.WellFormed) (hlive : live key = true) (he : t.entryAt i = some e)
    (hs : e.stale live = true) (hp : t.Passed live key i) (habsent : ∀ f ∈ t.entries, f.key ≠ key) (value : ν) :
    (if t.anchor live key i = i then t.replace i (.of key value)
      else (t.replace i (.of key value)).clean live (t.anchor live key i)).capacity = t.capacity ∧
    (∀ x, t.SameRun i x → (if t.anchor live key i = i then t.replace i (.of key value)
      else (t.replace i (.of key value)).clean live (t.anchor live key i)).staleAt live x = false) ∧
    ∀ g ∈ (if t.anchor live key i = i then t.replace i (.of key value)
      else (t.replace i (.of key value)).clean live (t.anchor live key i)).entries, g.key ≠ e.key := by
  obtain ⟨z, hz, hfree⟩ := h.exists_free
  have hi := lt_of_entryAt he
  have hat := entryAt_replace hi (Entry.of key value)
  have hw := h.written_replace he hs hp habsent value
  have hst : t.anchor live key i ≠ i → (t.replace i (.of key value)).staleAt live (t.anchor live key i) = true :=
    fun hai => h.staleAt_anchor_replace hi habsent hai value
  have hanchored := h.toSound.anchored live key hz hfree he
  have hgone : ∀ g ∈ (t.replace i (.of key value)).entries, g.key ≠ e.key := by
    intro g hg hgkey
    obtain ⟨x, hx⟩ := mem_entries.1 hg
    rw [hat] at hx
    by_cases hix : i = x
    · rw [if_pos hix] at hx
      cases hx
      exact habsent e (mem_entries_of_entryAt he) hgkey.symm
    · rw [if_neg hix] at hx
      exact hix (h.index_unique he hx hgkey.symm)
  have hbefore : ∀ x, t.SameRun i x → (t.replace i (.of key value)).staleAt live x = true →
      t.anchor live key i ≠ i ∧ rank t.capacity z (t.anchor live key i) ≤ rank t.capacity z x := by
    intro x hrun hsx
    obtain ⟨g, hg, hgs⟩ := staleAt_iff.1 hsx
    rw [hat] at hg
    by_cases hix : i = x
    · rw [if_pos hix] at hg
      cases hg
      simp [Entry.of, Entry.stale, hlive] at hgs
    · rw [if_neg hix] at hg
      exact hanchored.le_of_staleAt hrun (Ne.symm hix) (staleAt_iff.2 ⟨g, hg, hgs⟩)
  have hocc : ∀ x, ((t.replace i (.of key value)).entryAt x).isSome = (t.entryAt x).isSome := by
    intro x
    rw [hat]
    by_cases hix : i = x
    · simp [← hix, he]
    · simp [hix]
  by_cases hai : t.anchor live key i = i
  · rw [if_pos hai]
    refine ⟨hw.capacity_eq, ?_, hgone⟩
    intro x hrun
    rw [Bool.eq_false_iff]
    intro hsx
    exact (hbefore x hrun hsx).1 hai
  · rw [if_neg hai]
    obtain ⟨out, hc, hclear⟩ := clean_clears hw.sound hw.capacity_eq hocc hz hfree hi (hst hai)
      hanchored.place fun x hrun hsx => (hbefore x hrun hsx).2
    exact ⟨hc.capacity_eq.trans hw.capacity_eq, hclear, fun g hg => hgone g (hc.mem_of_mem hg)⟩

/-- Taking over a stale slot leaves nothing stale in its run, and drops the entry that was there. -/
theorem WellFormed.takeOver_clears (h : t.WellFormed) (hlive : live key = true) (he : t.entryAt i = some e)
    (hs : e.stale live = true) (hp : t.Passed live key i) (value : ν) :
    (t.takeOver live key value i).capacity = t.capacity ∧
    (∀ x, t.SameRun i x → (t.takeOver live key value i).staleAt live x = false) ∧
    ∀ g ∈ (t.takeOver live key value i).entries, g.key ≠ e.key := by
  rcases h.takeOver_cases hlive he hs hp value with ⟨j, f, hf, hj, hb, heq⟩ | ⟨habsent, heq⟩
  · rw [heq]
    exact h.clears_own hlive he hs hp hf hj hb value
  · rw [heq]
    exact h.clears_new hlive he hs hp habsent value

/-- An insertion whose search comes to a stale entry first takes over the slot of that entry. -/
theorem WellFormed.insert_of_stale (h : t.WellFormed) (he : t.entryAt i = some e) (hs : e.stale live = true)
    (hp : t.Passed live key i) (value : ν) :
    t.insert live key value = (t.takeOver live key value i, none) := by
  have hi := lt_of_entryAt he
  have hhome := h.toSound.home_lt key.hash
  obtain ⟨k, hseek, hf⟩ :=
    h.seek (p := (·.all fun f => f.belongs live key || f.stale live)) rfl hhome
  have hle : Cyclic.dist t.capacity (t.slots.home key.hash) k ≤ Cyclic.dist t.capacity (t.slots.home key.hash) i :=
    hf.le hi (by simp [he, hs])
  -- everything before `i` is of no interest to the search
  have hki : k = i := by
    by_contra hne
    have hlt : Cyclic.dist t.capacity (t.slots.home key.hash) k < Cyclic.dist t.capacity (t.slots.home key.hash) i := by
      refine Nat.lt_of_le_of_ne hle ?_
      intro heq
      exact hne (Cyclic.dist_inj hhome hf.lt hi heq)
    obtain ⟨g, hg, hgs, hgkey⟩ := hp k hf.lt hlt
    have hsat := hf.sat
    simp only [hg, Option.all_some, Bool.or_eq_true] at hsat
    rcases hsat with hb | hst
    · exact hgkey (Entry.belongs_iff.1 hb).1
    · simp [hgs] at hst
  have hnot : e.belongs live key = false := by
    rw [Bool.eq_false_iff]
    intro hb
    have := (Entry.belongs_iff.1 hb).2
    simp [hs] at this
  unfold Table.insert
  simp only [hseek, hki, he, hnot, Bool.false_eq_true, if_false]

end PerThread.Table
