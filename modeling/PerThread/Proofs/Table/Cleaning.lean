import PerThread.Proofs.Table.Repair
import PerThread.Table.Lookup

/-!
# Cleaning

Sweeping, scanning and looking up consist of expunging stale entries, one slot after another. `Cleaned`
says what any such sequence does: the entries `out` left, all of them stale, and the table is sound. So a
live entry is there afterwards if and only if it was there before.

A sweep leaves no stale entry, although the slots are visited by index while entries move around: what
moves is live, so a slot that has been visited never holds a stale entry again.
-/

namespace PerThread.Table

variable {ν : Type} {live : Liveness} {t u v : Table ν}

/-- The stale entries `out` left, in this order, and the table is sound. -/
structure Cleaned (live : Liveness) (t : Table ν) (out : List (Entry ν)) (u : Table ν) : Prop
    extends Shed live t out u where
  sound : u.Sound
  stale : ∀ e ∈ out, e.stale live = true

theorem staleAt_iff {i : Nat} :
    t.staleAt live i = true ↔ ∃ e, t.entryAt i = some e ∧ e.stale live = true := by
  unfold staleAt
  cases t.entryAt i <;> simp

namespace Cleaned

variable {out out₁ out₂ : List (Entry ν)}

theorem refl (live : Liveness) (h : t.Sound) : t.Cleaned live [] t :=
  { Shed.refl live t with sound := h, stale := by simp }

theorem trans (h₁ : t.Cleaned live out₁ u) (h₂ : u.Cleaned live out₂ v) :
    t.Cleaned live (out₁ ++ out₂) v :=
  { h₁.toShed.trans h₂.toShed with
    sound := h₂.sound
    stale := fun e he => (List.mem_append.1 he).elim (h₁.stale e) (h₂.stale e) }

/-- Cleaning neither loses a live entry nor makes one. -/
theorem mem_iff (h : t.Cleaned live out u) {e : Entry ν} (hlive : e.stale live = false) :
    e ∈ u.entries ↔ e ∈ t.entries := by
  refine ⟨h.mem_of_mem, fun he => (h.turnover.mem_or_mem he).resolve_left fun hout => ?_⟩
  have := h.stale e hout
  simp [hlive] at this

/-- All that left was stale. -/
theorem staleCount_eq (h : t.Cleaned live out u) :
    t.staleCount live = out.length + u.staleCount live := by
  rw [h.toShed.staleCount_eq, List.countP_eq_length.2 h.stale]

theorem len_eq (h : t.Cleaned live out u) (ht : t.Sound) : t.len = out.length + u.len := by
  rw [ht.len_eq, h.sound.len_eq, h.length_eq]

/-- A stale entry has never moved. -/
theorem staleAt_of_staleAt (h : t.Cleaned live out u) {i : Nat} (hi : u.staleAt live i = true) :
    t.staleAt live i = true := by
  obtain ⟨e, he, hs⟩ := staleAt_iff.1 hi
  obtain ⟨j, hj, -, hstay⟩ := h.moved i e he
  rw [hstay hs] at hj
  exact staleAt_iff.2 ⟨e, hj, hs⟩

end Cleaned

theorem WellFormed.of_cleaned {out : List (Entry ν)} (h : t.WellFormed) (hc : t.Cleaned live out u) :
    u.WellFormed :=
  h.of_shed hc.toShed hc.sound

/-- Expunging a stale entry is cleaning. -/
theorem Expunged.cleaned {i r : Nat} {e : Entry ν} (h : Expunged live t i e r u)
    (hs : e.stale live = true) :
    t.Cleaned live (e :: (t.arc (t.next i) (Cyclic.dist t.capacity (t.next i) r)).filter (·.stale live)) u :=
  { h.shed with
    sound := h.sound
    stale := fun f hf => by
      rcases List.mem_cons.1 hf with rfl | hf
      · exact hs
      · exact (List.mem_filter.1 hf).2 }

theorem Sound.expunge_stale (h : t.Sound) {i : Nat} {e : Entry ν} (he : t.entryAt i = some e)
    (hs : e.stale live = true) : ∃ out, t.Cleaned live (e :: out) (t.expunge live i).2 :=
  ⟨_, (h.expunge live he).cleaned hs⟩

/-- The expunged slot does not hold a stale entry any more. -/
theorem Expunged.staleAt {i r : Nat} {e : Entry ν} (h : Expunged live t i e r u) (he : t.entryAt i = some e) :
    u.staleAt live i = false := by
  have hi := lt_of_entryAt he
  have hir : i ≠ r := by
    rintro rfl
    simp [h.free] at he
  have hd : Cyclic.dist t.capacity i i < Cyclic.dist t.capacity i r := by
    have hne : Cyclic.dist t.capacity i i ≠ Cyclic.dist t.capacity i r := fun heq =>
      hir (Cyclic.dist_inj hi hi h.lt heq)
    rw [Cyclic.dist_self] at hne ⊢
    omega
  rw [Bool.eq_false_iff]
  intro hs
  obtain ⟨f, hf, hfs⟩ := staleAt_iff.1 hs
  simp [h.clean i hi hd f hf] at hfs

/-! ## Sweeping -/

theorem Sound.foldl_expunge (live : Liveness) (h : t.Sound) (slots : List Nat) :
    ∃ out, t.Cleaned live out
        (slots.foldl (fun u i => if u.staleAt live i then (u.expunge live i).2 else u) t) ∧
      ∀ i ∈ slots, (slots.foldl (fun u i => if u.staleAt live i then (u.expunge live i).2 else u) t).staleAt
        live i = false := by
  induction slots generalizing t with
  | nil => exact ⟨[], .refl live h, by simp⟩
  | cons i rest ih =>
    rw [List.foldl_cons]
    have hfirst : ∃ out, t.Cleaned live out (if t.staleAt live i then (t.expunge live i).2 else t) ∧
        (if t.staleAt live i then (t.expunge live i).2 else t).staleAt live i = false := by
      split
      · rename_i hi
        obtain ⟨e, he, hs⟩ := staleAt_iff.1 hi
        obtain ⟨out, hc⟩ := h.expunge_stale he hs
        exact ⟨e :: out, hc, (h.expunge live he).staleAt he⟩
      · rename_i hi
        exact ⟨[], .refl live h, by simpa using hi⟩
    generalize (if t.staleAt live i then (t.expunge live i).2 else t) = w at hfirst ⊢
    obtain ⟨out₁, hc₁, hi⟩ := hfirst
    obtain ⟨out₂, hc₂, hrest⟩ := ih hc₁.sound
    refine ⟨out₁ ++ out₂, hc₁.trans hc₂, fun j hj => ?_⟩
    rcases List.mem_cons.1 hj with rfl | hj
    · rw [Bool.eq_false_iff]
      intro hs
      simp [hc₂.staleAt_of_staleAt hs] at hi
    · exact hrest j hj

/-- A sweep drops stale entries only, and all of them. -/
theorem Sound.sweep (live : Liveness) (h : t.Sound) :
    ∃ out, t.Cleaned live out (t.sweep live) ∧ ∀ e ∈ (t.sweep live).entries, e.stale live = false := by
  obtain ⟨out, hc, hclean⟩ := h.foldl_expunge live (List.range t.capacity)
  refine ⟨out, hc, fun e he => ?_⟩
  obtain ⟨i, hi⟩ := mem_entries.1 he
  have hlt : i < t.capacity := by simpa using lt_of_entryAt hi
  have hnot := hclean i (List.mem_range.2 hlt)
  rw [Bool.eq_false_iff] at hnot
  rw [Bool.eq_false_iff]
  exact fun hs => hnot (staleAt_iff.2 ⟨e, hi, hs⟩)

/-! ## Scanning -/

/-- The number of slots that a budget lasts for, if no stale entry is met. -/
theorem log2_half {n : Nat} (h : n / 2 ≠ 0) : n.log2 = (n / 2).log2 + 1 := by
  rw [Nat.log2_def, if_pos (by omega)]

/-- A budget that lasts for no further slot. -/
theorem log2_of_half_eq_zero {n : Nat} (h : n / 2 = 0) : n.log2 = 0 := by
  rw [Nat.log2_def, if_neg (by omega)]

/-- A look at a slot either changes nothing, or is a hit and drops a stale entry. -/
theorem Scan.look_cases (live : Liveness) {s : Scan ν} (h : s.table.Sound) (i n : Nat) :
    (s.look live i n).2.2.table = s.table ∧ (s.look live i n).2.2.hits = s.hits ∧
      (s.look live i n).2.1 = n / 2 ∨
    (∃ e out, s.table.Cleaned live (e :: out) (s.look live i n).2.2.table) ∧
      (s.look live i n).2.2.hits = s.hits + 1 ∧ (s.look live i n).2.1 = s.table.capacity / 2 := by
  unfold look
  dsimp only
  split
  · rename_i hj
    obtain ⟨e, he, hs⟩ := staleAt_iff.1 hj
    obtain ⟨out, hc⟩ := h.expunge_stale he hs
    exact Or.inr ⟨⟨e, out, hc⟩, rfl, rfl⟩
  · exact Or.inl ⟨rfl, rfl, rfl⟩

/-- A scan that is given as many looks as it may take ends. It is cleaning, and drops an entry if it counts a hit. -/
theorem Scan.go_spec (live : Liveness) {fuel i n : Nat} {s : Scan ν} (h : s.table.Sound)
    (hfuel : n.log2 + s.table.staleCount live * s.table.capacity.log2 < fuel) :
    ∃ r out, Scan.go live fuel i n s = some r ∧ s.table.Cleaned live out r.table ∧ s.hits ≤ r.hits ∧
      (r.hits = s.hits → r.table = s.table) ∧ (s.hits < r.hits → out ≠ []) := by
  induction fuel generalizing i n s with
  | zero => omega
  | succ fuel ih =>
    simp only [Scan.go]
    rcases Scan.look_cases live h i n with ⟨htable, hhits, hbudget⟩ | ⟨⟨e, out, hc⟩, hhits, hbudget⟩
    · generalize s.look live i n = l at htable hhits hbudget ⊢
      have hrefl : s.table.Cleaned live [] l.2.2.table := by
        rw [htable]
        exact .refl live h
      split
      · exact ⟨l.2.2, [], rfl, hrefl, by omega, fun _ => htable, by omega⟩
      · rename_i hgo
        rw [hbudget] at hgo ⊢
        have hhalf := log2_half hgo
        obtain ⟨r, out, hr, hc, hle, hnone, hsome⟩ := ih (i := l.1) (n := n / 2) hrefl.sound
          (by rw [htable]; omega)
        rw [hhits] at hle hnone hsome
        refine ⟨r, out, hr, hrefl.trans hc, hle, fun heq => (hnone heq).trans htable, hsome⟩
    · generalize s.look live i n = l at hc hhits hbudget ⊢
      have hcount := hc.staleCount_eq
      simp only [List.length_cons] at hcount
      split
      · exact ⟨l.2.2, e :: out, rfl, hc, by omega, by omega, by simp⟩
      · rename_i hgo
        rw [hbudget] at hgo ⊢
        have hhalf := log2_half hgo
        -- the dropped entry pays for the new budget
        have hpaid : l.2.2.table.staleCount live * s.table.capacity.log2 + s.table.capacity.log2 ≤
            s.table.staleCount live * s.table.capacity.log2 := by
          rw [hcount, ← Nat.succ_mul]
          exact Nat.mul_le_mul_right _ (by omega)
        obtain ⟨r, rest, hr, hc', hle, -, -⟩ := ih (i := l.1) (n := s.table.capacity / 2) hc.sound
          (by rw [hc.capacity_eq]; omega)
        exact ⟨r, e :: out ++ rest, hr, hc.trans hc', by omega, by omega, by simp⟩

/-- The limit is enough for a scan from its beginning. -/
theorem scanLimit_spec (t : Table ν) (live : Liveness) (n : Nat) :
    n.log2 + t.staleCount live * t.capacity.log2 < t.scanLimit live n := by
  unfold scanLimit
  omega

theorem Sound.go_scan (live : Liveness) (h : t.Sound) (i n : Nat) :
    Scan.go live (t.scanLimit live n) i n ⟨[], 0, t⟩ = some (t.scan live i n) := by
  obtain ⟨r, -, hgo, -⟩ := Scan.go_spec live (i := i) (s := ⟨[], 0, t⟩) h (t.scanLimit_spec live n)
  unfold Table.scan
  rw [hgo]
  rfl

theorem Sound.scan (live : Liveness) (h : t.Sound) (i n : Nat) :
    ∃ out, t.Cleaned live out (t.scan live i n).table ∧
      ((t.scan live i n).hits = 0 → (t.scan live i n).table = t) ∧
      ((t.scan live i n).hits ≠ 0 → out ≠ []) := by
  obtain ⟨r, out, hgo, hc, -, hnone, hsome⟩ :=
    Scan.go_spec live (i := i) (s := ⟨[], 0, t⟩) h (t.scanLimit_spec live n)
  have heq : t.scan live i n = r := Option.some.inj ((h.go_scan live i n).symm.trans hgo)
  rw [heq]
  exact ⟨out, hc, hnone, fun hne => hsome (Nat.pos_of_ne_zero hne)⟩

/-- Expunging a stale slot and scanning behind its run. -/
theorem Sound.clean (h : t.Sound) {i : Nat} {e : Entry ν} (he : t.entryAt i = some e)
    (hs : e.stale live = true) : ∃ out, t.Cleaned live (e :: out) (t.clean live i) := by
  obtain ⟨out₁, hc₁⟩ := h.expunge_stale he hs
  obtain ⟨out₂, hc₂, -⟩ := hc₁.sound.scan live (t.expunge live i).1 (t.expunge live i).2.capacity
  exact ⟨out₁ ++ out₂, hc₁.trans hc₂⟩

end PerThread.Table
