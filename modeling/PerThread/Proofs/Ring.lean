import PerThread.Cyclic

/-!
# The ring cut open

A walk around the ring never passes a given free slot `z`, so for its sake the ring may be cut open
behind `z`: `rank n z x` is the place of `x` in the line that starts behind `z` and ends with `z`. Along
the line, walking is counting up, and "between" is a matter of `≤`.

`seek` finds the first position, counted from where it starts, at which its predicate holds.
-/

namespace PerThread.Cyclic

/-- The place of `x` in the line that begins behind `z`. -/
def rank (n z x : Nat) : Nat := dist n (next n z) x

section
variable {n z x y : Nat}

theorem rank_lt (z : Nat) (hx : x < n) : rank n z x < n :=
  dist_lt (next_lt (by omega)) hx

theorem rank_end (hz : z < n) : rank n z z + 1 = n := by
  unfold rank dist next; split <;> split <;> omega

theorem rank_next (hz : z < n) (hx : x < n) (h : x ≠ z) : rank n z (next n x) = rank n z x + 1 := by
  unfold rank dist next; grind

theorem rank_inj (hz : z < n) (hx : x < n) (hy : y < n) (h : rank n z x = rank n z y) : x = y := by
  unfold rank dist next at h; grind

/-- Distances read off the line. -/
theorem dist_eq_rank (hz : z < n) (hx : x < n) (hy : y < n) :
    dist n x y = if rank n z x ≤ rank n z y then rank n z y - rank n z x
      else rank n z y + n - rank n z x := by
  unfold rank dist next; grind

/-- Nearer to `x` than `r` is what lies between them. -/
theorem dist_lt_iff_rank {r : Nat} (hz : z < n) (hx : x < n) (hr : r < n) (hy : y < n)
    (h : rank n z x ≤ rank n z r) :
    dist n x y < dist n x r ↔ rank n z x ≤ rank n z y ∧ rank n z y < rank n z r := by
  have hdr := dist_eq_rank hz hx hr
  have hdy := dist_eq_rank hz hx hy
  have hrr := rank_lt z hr
  grind

/-- Farther from `x` than `r` is what lies before `x` or behind `r`. -/
theorem lt_dist_iff_rank {r : Nat} (hz : z < n) (hx : x < n) (hr : r < n) (hy : y < n)
    (h : rank n z x ≤ rank n z r) :
    dist n x r < dist n x y ↔ rank n z y < rank n z x ∨ rank n z r < rank n z y := by
  have hdr := dist_eq_rank hz hx hr
  have hdy := dist_eq_rank hz hx hy
  have hrr := rank_lt z hr
  grind

end

section
variable {n i j x : Nat}

theorem dist_self (n i : Nat) : dist n i i = 0 := by simp [dist]

theorem dist_inj (hi : i < n) (hj : j < n) (hx : x < n) (h : dist n i j = dist n i x) : j = x := by
  unfold dist at h; grind

theorem dist_eq_zero_iff (hi : i < n) : dist n i j = 0 ↔ i = j := by
  unfold dist; grind

/-- A step ahead brings every other position one step nearer. -/
theorem dist_next (hi : i < n) (hx : x < n) (h : x ≠ i) : dist n i x = dist n (next n i) x + 1 := by
  unfold dist next; grind

theorem dist_next_self (hi : i < n) : dist n (next n i) i + 1 = n := by
  unfold dist next; grind

end

/-! ## What `seek` finds -/

section
variable {n : Nat} {p : Nat → Bool}

/-- A position that satisfies the predicate and comes first. -/
structure First (n : Nat) (p : Nat → Bool) (i j : Nat) : Prop where
  lt : j < n
  sat : p j = true
  before : ∀ x < n, dist n i x < dist n i j → p x = false

theorem First.le {i j x : Nat} (h : First n p i j) (hx : x < n) (hp : p x = true) :
    dist n i j ≤ dist n i x := by
  by_cases hlt : dist n i x < dist n i j
  · have := h.before x hx hlt
    simp_all
  · omega

/-- Along the line that ends with a position like those sought, the first one comes at or after the start,
and none lies between. -/
theorem First.rank {i j z : Nat} (h : First n p i j) (hi : i < n) (hz : z < n) (hp : p z = true) :
    rank n z i ≤ rank n z j ∧
      ∀ x < n, rank n z i ≤ rank n z x → rank n z x < rank n z j → p x = false := by
  have hdj := dist_eq_rank hz hi h.lt
  have hdz := dist_eq_rank hz hi hz
  have hend := rank_end hz
  have hir := rank_lt z hi
  have hle := h.le hz hp
  have hij : Cyclic.rank n z i ≤ Cyclic.rank n z j := by grind
  exact ⟨hij, fun x hx h1 h2 => h.before x hx ((dist_lt_iff_rank hz hi h.lt hx hij).2 ⟨h1, h2⟩)⟩

theorem seek_reaches {x fuel i : Nat} (hx : x < n) (hp : p x = true) (hi : i < n) (hd : dist n i x < fuel) :
    ∃ j, seek n p fuel i = some j ∧ First n p i j := by
  induction fuel generalizing i with
  | zero => omega
  | succ fuel ih =>
    by_cases hpi : p i = true
    · refine ⟨i, by simp [seek, hpi], hi, hpi, fun y _ hy => ?_⟩
      simp [dist_self] at hy
    · have hne : x ≠ i := fun h => hpi (h ▸ hp)
      have hstep := dist_next hi hx hne
      obtain ⟨j, hj, hf⟩ := ih (next_lt (i := i) (by omega)) (by omega)
      refine ⟨j, by simp [seek, hpi, hj], hf.lt, hf.sat, fun y hy hlt => ?_⟩
      by_cases hyi : y = i
      · subst hyi; simpa using hpi
      · have hji : j ≠ i := fun h => hpi (h ▸ hf.sat)
        have := dist_next hi hy hyi
        have := dist_next hi hf.lt hji
        exact hf.before y hy (by omega)

/-- Wherever some position satisfies the predicate, a search all around finds the first of them. -/
theorem seek_first {i x : Nat} (hi : i < n) (hx : x < n) (hp : p x = true) :
    ∃ j, seek n p n i = some j ∧ First n p i j :=
  seek_reaches hx hp hi (dist_lt hi hx)

end

end PerThread.Cyclic
