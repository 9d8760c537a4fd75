import PerThread.Proofs.Table.Lookup
import PerThread.Proofs.Table.Rebuild
import PerThread.Proofs.Table.Scanning

/-!
# What a scan reports

A store goes by the report of the scan that follows it: if there was a hit the table has become shorter, and need not
make room. A scan without a hit has looked at the slots behind the one it began at, one more than the logarithm of its
budget, and has left the table as it was.

After its last hit a scan looks at one slot for every halving of the capacity, beginning behind the free slot that the
repair came to. None of them is stale, and nothing changes any more. Nor is any slot stale at the end that was looked
at before: a hit empties its slot or brings a live entry there, and what is stale never moves.
-/

namespace PerThread.Table

variable {ν : Type} {live : Liveness} {t : Table ν} {i n fuel x : Nat} {s r : Scan ν}

/-! ## Slots in a row -/

/-- The `n` slots behind slot `i`, along the ring. -/
def following (t : Table ν) (i n : Nat) : List Nat := (List.range n).map fun d => (i + 1 + d) % t.capacity

theorem next_eq_mod (hi : i < t.capacity) : t.next i = (i + 1) % t.capacity := by
  unfold next Cyclic.next
  split
  · rename_i hlt
    exact (Nat.mod_eq_of_lt hlt).symm
  · have hlast : i + 1 = t.capacity := by omega
    rw [hlast, Nat.mod_self]

theorem iterate_next (hi : i < t.capacity) (d : Nat) : t.next^[d] i = (i + d) % t.capacity := by
  have hpos := Nat.zero_lt_of_lt hi
  induction d with
  | zero => exact (Nat.mod_eq_of_lt hi).symm
  | succ d ih => rw [Function.iterate_succ_apply', ih, next_eq_mod (Nat.mod_lt _ hpos), Nat.mod_add_mod, Nat.add_assoc]

theorem mem_following (hi : i < t.capacity) : x ∈ t.following i n ↔ ∃ d < n, t.next^[d + 1] i = x := by
  unfold following
  simp only [List.mem_map, List.mem_range, iterate_next hi, Nat.add_assoc, Nat.add_comm 1]

@[simp] theorem length_following (t : Table ν) (i n : Nat) : (t.following i n).length = n := by
  simp [following]

theorem following_succ (hi : i < t.capacity) (n : Nat) :
    t.following i (n + 1) = t.next i :: t.following (t.next i) n := by
  unfold following
  rw [List.range_succ_eq_map, List.map_cons, List.map_map, next_eq_mod hi]
  congr 1
  refine List.map_congr_left fun d _ => ?_
  calc (i + 1 + (d + 1)) % t.capacity
      = (i + 1 + (1 + d)) % t.capacity := by rw [Nat.add_comm d 1]
    _ = ((i + 1) % t.capacity + (1 + d)) % t.capacity := (Nat.mod_add_mod _ _ _).symm
    _ = ((i + 1) % t.capacity + 1 + d) % t.capacity := by rw [Nat.add_assoc]

theorem following_congr {u : Table ν} (h : u.capacity = t.capacity) (i n : Nat) :
    u.following i n = t.following i n := by
  unfold following
  rw [h]

/-! ## The slots that a scan looks at -/

/-- A scan without a hit changes nothing, and looks at the next slots in a row. -/
theorem Scan.go_misses (hgo : Scan.go live fuel i n s = some r) (hi : i < s.table.capacity) (hnone : r.hits = s.hits) :
    r.table = s.table ∧ r.inspected = (s.table.following i (n.log2 + 1)).reverse ++ s.inspected := by
  induction fuel generalizing i n s with
  | zero => cases hgo
  | succ fuel ih =>
    cases hst : s.table.staleAt live (s.table.next i) with
    | true =>
      have hmore := Scan.hits_lt_go hst hgo
      omega
    | false =>
      simp only [Scan.go, Scan.look_miss hst] at hgo
      rw [following_succ hi, List.reverse_cons, List.append_assoc]
      split at hgo
      · rename_i hend
        cases hgo
        rw [log2_of_half_eq_zero hend]
        exact ⟨rfl, rfl⟩
      · rename_i hmore
        obtain ⟨htable, hinspected⟩ := ih hgo (next_lt hi) hnone
        rw [log2_half hmore]
        exact ⟨htable, hinspected⟩

/-- A scan with a hit ends with slots in a row behind a free one, one for every halving of the capacity. -/
theorem Scan.go_hits (hgo : Scan.go live fuel i n s = some r) (h : s.table.Sound) (hi : i < s.table.capacity)
    (hhit : s.hits < r.hits) :
    ∃ z < s.table.capacity, r.table.entryAt z = none ∧ ∃ last earlier,
      r.inspected = (s.table.following z s.table.capacity.log2).reverse ++ last :: earlier := by
  induction fuel generalizing i n s with
  | zero => cases hgo
  | succ fuel ih =>
    cases hst : s.table.staleAt live (s.table.next i) with
    | false =>
      simp only [Scan.go, Scan.look_miss hst] at hgo
      split at hgo
      · cases hgo
        exact absurd hhit (Nat.lt_irrefl _)
      · have hrest := ih hgo h (next_lt hi) hhit
        exact hrest
    | true =>
      obtain ⟨e, he, hs⟩ := staleAt_iff.1 hst
      have hexp := h.expunge live he
      have hcap := hexp.shed.capacity_eq
      simp only [Scan.go, Scan.look_hit hst] at hgo
      split at hgo
      · -- a table with an entry and a free slot has two slots at least
        rename_i hend
        have hlen := h.len_eq
        have hroom := h.room
        have hpos := List.length_pos_of_mem (mem_entries_of_entryAt he)
        omega
      · rename_i hmore
        have hlog := log2_half hmore
        rcases Nat.lt_or_eq_of_le (Scan.hits_le_go hgo) with hlt | heq
        · have hrest := ih hgo hexp.sound (by simpa only [hcap] using hexp.lt) hlt
          simpa only [hcap, following_congr hcap] using hrest
        · -- the hit at hand was the last one
          obtain ⟨htable, hinspected⟩ := Scan.go_misses hgo (by simpa only [hcap] using hexp.lt) heq.symm
          refine ⟨_, hexp.lt, ?_, s.table.next i, s.inspected, ?_⟩
          · rw [htable]
            exact hexp.free_after
          · rw [hinspected, following_congr hcap, hlog]

/-! ## What has been looked at stays clean -/

/-- A look leaves no stale entry in the slot looked at, nor in those looked at before. -/
theorem Scan.fresh_look (h : s.table.Sound) (hfresh : ∀ x ∈ s.inspected, s.table.staleAt live x = false) :
    (s.look live i n).2.2.table.Sound ∧
      ∀ x ∈ (s.look live i n).2.2.inspected, (s.look live i n).2.2.table.staleAt live x = false := by
  cases hst : s.table.staleAt live (s.table.next i) with
  | false =>
    rw [Scan.look_miss hst]
    exact ⟨h, List.forall_mem_cons.2 ⟨hst, hfresh⟩⟩
  | true =>
    obtain ⟨e, he, hs⟩ := staleAt_iff.1 hst
    obtain ⟨out, hc⟩ := h.expunge_stale he hs
    rw [Scan.look_hit hst]
    refine ⟨hc.sound, List.forall_mem_cons.2 ⟨(h.expunge live he).staleAt he, fun x hx => ?_⟩⟩
    have hbefore := hfresh x hx
    rw [Bool.eq_false_iff] at hbefore ⊢
    exact fun hafter => hbefore (hc.staleAt_of_staleAt hafter)

theorem Scan.go_fresh (hgo : Scan.go live fuel i n s = some r) (h : s.table.Sound)
    (hfresh : ∀ x ∈ s.inspected, s.table.staleAt live x = false) : ∀ x ∈ r.inspected, r.table.staleAt live x = false := by
  induction fuel generalizing i n s with
  | zero => cases hgo
  | succ fuel ih =>
    obtain ⟨hsound, hlooked⟩ := Scan.fresh_look (i := i) (n := n) h hfresh
    simp only [Scan.go] at hgo
    split at hgo
    · cases hgo
      exact hlooked
    · exact ih hgo hsound hlooked

/-! ## The report -/

/-- A scan of a sound table behind slot `i` comes to its end, and reports no hit if none of the next slots, one more
than the logarithm of its budget, is stale, and only then. The table is as before in that case. If there was a hit the
table is shorter: stale entries left it and nothing else did, every live identity has its value, and the table is
sound. The slots that the scan looked at last, one for every halving of the capacity, are those behind a free one;
neither they nor any others that the scan looked at are stale. -/
theorem Sound.scan_report (live : Liveness) (h : t.Sound) (hi : i < t.capacity) (n : Nat) :
    ∃ r, Scan.go live (t.scanLimit live n) i n ⟨[], 0, t⟩ = some r ∧ t.scan live i n = r ∧
      (r.hits = 0 ↔ ∀ x ∈ t.following i (n.log2 + 1), t.staleAt live x = false) ∧
      (r.hits = 0 → r.table = t ∧ r.inspected = (t.following i (n.log2 + 1)).reverse) ∧
      (r.hits ≠ 0 →
        r.table.len < t.len ∧
        (∃ out, t.entries.Perm (out ++ r.table.entries) ∧ (∀ e ∈ out, e.stale live = true) ∧
          r.table.reclaimed = t.reclaimed ++ out.map Entry.value) ∧
        (∀ key, live key = true → r.table.valueOf? key = t.valueOf? key ∧
          ((∀ e ∈ t.entries, e.hash = e.key.hash) → (r.table.get? live key).1 = (t.get? live key).1)) ∧
        (r.table.capacity = t.capacity ∧ r.table.threshold = t.threshold ∧ r.table.Sound) ∧
        (t.capacity.log2 < r.inspected.length ∧ ∃ z < t.capacity, r.table.entryAt z = none ∧
          r.inspected.take t.capacity.log2 = (t.following z t.capacity.log2).reverse) ∧
        ∀ x ∈ r.inspected, r.table.staleAt live x = false) := by
  have hgo := h.go_scan live i n
  have hiff := h.scan_hits_iff live i n
  obtain ⟨out, hc, -, hsome⟩ := h.scan live i n
  generalize t.scan live i n = r at hgo hiff hc hsome
  refine ⟨r, hgo, rfl, ?_, ?_, ?_⟩
  · -- no hit
    rw [hiff]
    simp only [mem_following hi, forall_exists_index, and_imp, forall_apply_eq_imp_iff₂, Nat.lt_succ_iff]
  · intro hzero
    obtain ⟨htable, hinspected⟩ := Scan.go_misses hgo hi hzero
    exact ⟨htable, by rw [hinspected, List.append_nil]⟩
  · intro hhit
    have hlen := hc.len_eq h
    have hdropped := List.length_pos_of_ne_nil (hsome hhit)
    obtain ⟨z, hz, hfree, last, earlier, hinspected⟩ :=
      Scan.go_hits hgo h hi (Nat.pos_of_ne_zero hhit)
    refine ⟨by omega, ⟨out, by simpa using hc.turnover.entries, hc.stale, hc.turnover.reclaimed⟩, ?_,
      ⟨hc.capacity_eq, hc.threshold_eq, hc.sound⟩, ⟨?_, z, hz, hfree, ?_⟩, ?_⟩
    · intro key hlive
      have hvalue := hc.valueOf? h hlive
      refine ⟨hvalue, fun hhash => ?_⟩
      obtain ⟨-, -, -, -, -, hbefore⟩ := h.get? hhash hlive
      obtain ⟨-, -, -, -, -, hafter⟩ := hc.sound.get? (fun e he => hhash e (hc.mem_of_mem he)) hlive
      rw [hbefore, hafter, hvalue]
    · rw [hinspected, List.length_append, List.length_reverse, length_following]
      exact Nat.lt_add_of_pos_right (Nat.succ_pos _)
    · rw [hinspected, List.take_left']
      simp
    · exact Scan.go_fresh hgo h (by simp)

/-- Six entries, of which the second and the last have been let go of. Five of them stand around the end of the ring, in
slots 14, 15, 0, 1 and 2; the last one stands in slot 6. The budget lasts for slots 14 and 15. The hit at slot 15 takes
the scan to slot 6, and that one to slot 11. -/
theorem scan_report_across_end :
    ∃ (t : Table Nat) (live : Liveness) (r : Scan Nat), t.Sound ∧ t.capacity = 16 ∧ t.scan live 13 2 = r ∧
      t.staleAt live 15 = true ∧ r.hits = 2 ∧ r.inspected = [11, 10, 9, 8, 6, 5, 4, 15, 14] ∧
      r.table.len < t.len ∧ r.table.valueOf? ⟨3, 14⟩ = some 23 ∧
      ∀ x ∈ [11, 10, 9, 8, 6, 5, 4, 15, 14], r.table.staleAt live x = false := by
  have hs := (sound_endow [⟨⟨0, 14⟩, 14, 20⟩, ⟨⟨1, 14⟩, 14, 21⟩, ⟨⟨2, 14⟩, 14, 22⟩, ⟨⟨3, 14⟩, 14, 23⟩,
    ⟨⟨4, 2⟩, 2, 24⟩, ⟨⟨5, 6⟩, 6, 25⟩] (n := 16) (by decide) (by decide)).1
  obtain ⟨r, hgo, hr, -, -, hhit⟩ := hs.scan_report (fun key => key.serial != 1 && key.serial != 5) (i := 13) (by decide) 2
  cases hgo.symm.trans (rfl : Scan.go _ _ _ _ _ = some _)
  obtain ⟨hshorter, -, hvalue, -, -, hclean⟩ := hhit (by decide)
  exact ⟨_, _, _, hs, rfl, hr, rfl, rfl, rfl, hshorter, (hvalue ⟨3, 14⟩ rfl).1, hclean⟩

end PerThread.Table
