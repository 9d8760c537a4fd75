import Mathlib.Logic.Function.Iterate
import PerThread.Proofs.Table.Cleaning

/-!
# What a scan comes across

A scan that counts no hit has looked at the next slots, one more than the logarithm of its budget, and none of them
was stale. Each hit buys a logarithm of the capacity and uses up a stale entry.
-/

namespace PerThread.Table

variable {ν : Type} {live : Liveness} {t : Table ν} {i n fuel : Nat} {s r : Scan ν}

theorem Scan.look_miss (h : s.table.staleAt live (s.table.next i) = false) :
    s.look live i n = (s.table.next i, n / 2, { s with inspected := s.table.next i :: s.inspected }) := by
  simp [look, h]

theorem Scan.look_hit (h : s.table.staleAt live (s.table.next i) = true) :
    s.look live i n = ((s.table.expunge live (s.table.next i)).1, s.table.capacity / 2,
      ⟨s.table.next i :: s.inspected, s.hits + 1, (s.table.expunge live (s.table.next i)).2⟩) := by
  simp [look, h]

theorem Scan.hits_look (h : s.table.staleAt live (s.table.next i) = true) :
    (s.look live i n).2.2.hits = s.hits + 1 := by
  rw [look_hit h]

theorem Scan.length_look (live : Liveness) (i n : Nat) (s : Scan ν) :
    (s.look live i n).2.2.inspected.length = s.inspected.length + 1 := by
  unfold look
  dsimp only
  split <;> rfl

/-- Hits are never forgotten. -/
theorem Scan.hits_le_go (hgo : Scan.go live fuel i n s = some r) : s.hits ≤ r.hits := by
  induction fuel generalizing i n s with
  | zero => cases hgo
  | succ fuel ih =>
    have hlook : s.hits ≤ (s.look live i n).2.2.hits := by
      unfold look
      dsimp only
      split
      · exact Nat.le_succ _
      · exact Nat.le_refl _
    simp only [Scan.go] at hgo
    split at hgo
    · cases hgo
      exact hlook
    · exact Nat.le_trans hlook (ih hgo)

/-- A scan that begins with a hit counts one more at least. -/
theorem Scan.hits_lt_go (hst : s.table.staleAt live (s.table.next i) = true)
    (hgo : Scan.go live (fuel + 1) i n s = some r) : s.hits < r.hits := by
  have hhit := Scan.hits_look (n := n) hst
  simp only [Scan.go] at hgo
  split at hgo
  · cases hgo
    omega
  · have := Scan.hits_le_go hgo
    omega

/-- A scan without a hit has seen as many slots as its budget lasts for. -/
theorem Scan.go_hits_iff (hgo : Scan.go live fuel i n s = some r) :
    r.hits = s.hits ↔ ∀ d ≤ n.log2, s.table.staleAt live (s.table.next^[d + 1] i) = false := by
  induction fuel generalizing i n s with
  | zero => cases hgo
  | succ fuel ih =>
    cases hst : s.table.staleAt live (s.table.next i) with
    | true =>
      -- the first slot behind `i` is a hit already
      have hmore := Scan.hits_lt_go hst hgo
      constructor
      · intro heq
        omega
      · intro hnone
        have := hnone 0 (Nat.zero_le _)
        simp [hst] at this
    | false =>
      simp only [Scan.go, Scan.look_miss hst] at hgo
      split at hgo
      · rename_i hend
        cases hgo
        have hlog := log2_of_half_eq_zero hend
        refine ⟨fun _ d hd => ?_, fun _ => rfl⟩
        have hzero : d = 0 := by omega
        rw [hzero]
        exact hst
      · rename_i hmore
        rw [ih hgo, log2_half hmore]
        constructor
        · intro h d hd
          cases d with
          | zero => exact hst
          | succ d => exact h d (by omega)
        · intro h d hd
          exact h (d + 1) (by omega)

/-- The looks that a scan takes: those that its budget lasts for, and a logarithm of the capacity for each hit. -/
theorem Scan.go_looks (hgo : Scan.go live fuel i n s = some r) :
    r.inspected.length ≤ s.inspected.length + n.log2 + 1 + (r.hits - s.hits) * s.table.capacity.log2 := by
  induction fuel generalizing i n s with
  | zero => cases hgo
  | succ fuel ih =>
    simp only [Scan.go] at hgo
    have hlength := Scan.length_look live i n s
    have hcap := Scan.capacity_look live i n s
    split at hgo
    · cases hgo
      omega
    · rename_i hmore
      have hrest := ih hgo
      rw [hcap, hlength] at hrest
      cases hst : s.table.staleAt live (s.table.next i) with
      | true =>
        have hhit := Scan.hits_look (n := n) hst
        have hle := Scan.hits_le_go hgo
        have hbudget : (s.look live i n).2.1 = s.table.capacity / 2 := by rw [Scan.look_hit hst]
        rw [hbudget] at hrest hmore
        have hhalf := log2_half hmore
        -- the hit has paid for the new budget
        have hpaid : (r.hits - s.hits) * s.table.capacity.log2 =
            (r.hits - (s.look live i n).2.2.hits) * s.table.capacity.log2 + s.table.capacity.log2 := by
          rw [← Nat.succ_mul, hhit]
          congr 1
          omega
        omega
      | false =>
        rw [Scan.look_miss hst] at hrest hmore
        have hhalf := log2_half hmore
        dsimp only at hrest
        omega

/-- Every hit uses up a stale entry. -/
theorem Scan.go_hits_le (h : s.table.Sound) (hgo : Scan.go live fuel i n s = some r) :
    r.hits + r.table.staleCount live ≤ s.hits + s.table.staleCount live := by
  induction fuel generalizing i n s with
  | zero => cases hgo
  | succ fuel ih =>
    simp only [Scan.go] at hgo
    have hlook : (s.look live i n).2.2.table.Sound ∧ (s.look live i n).2.2.hits +
        (s.look live i n).2.2.table.staleCount live ≤ s.hits + s.table.staleCount live := by
      rcases Scan.look_cases live h i n with ⟨htable, hhits, -⟩ | ⟨⟨e, out, hc⟩, hhits, -⟩
      · rw [htable, hhits]
        exact ⟨h, Nat.le_refl _⟩
      · have hcount := hc.staleCount_eq
        simp only [List.length_cons] at hcount
        exact ⟨hc.sound, by omega⟩
    split at hgo
    · cases hgo
      exact hlook.2
    · exact Nat.le_trans (ih hlook.1 hgo) hlook.2

/-- A scan with budget `n` hits nothing if none of the next `log2 n + 1` slots is stale, and only then. -/
theorem Sound.scan_hits_iff (live : Liveness) (h : t.Sound) (i n : Nat) :
    (t.scan live i n).hits = 0 ↔ ∀ d ≤ n.log2, t.staleAt live (t.next^[d + 1] i) = false :=
  Scan.go_hits_iff (h.go_scan live i n)

/-- How many slots a scan looks at, and how many of them may be hits. -/
theorem Sound.scan_looks (live : Liveness) (h : t.Sound) (i n : Nat) :
    (t.scan live i n).inspected.length ≤ n.log2 + 1 + (t.scan live i n).hits * t.capacity.log2 ∧
      (t.scan live i n).hits ≤ t.staleCount live := by
  have hlooks := Scan.go_looks (h.go_scan live i n)
  have hhits := Scan.go_hits_le (s := ⟨[], 0, t⟩) h (h.go_scan live i n)
  simp only [List.length_nil, Nat.sub_zero, Nat.zero_add] at hlooks hhits
  exact ⟨hlooks, Nat.le_of_add_right_le hhits⟩

end PerThread.Table
