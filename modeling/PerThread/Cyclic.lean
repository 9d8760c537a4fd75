/-!
# Positions on a ring

A table of `n` slots is probed cyclically: after slot `n - 1` comes slot `0`. The functions are
written with comparisons instead of remainders, so that linear arithmetic decides facts about them.
-/

namespace PerThread.Cyclic

/-- `next_index`: the position after `i`. -/
def next (n i : Nat) : Nat := if i + 1 < n then i + 1 else 0

/-- `prev_index`: the position before `i`. -/
def prev (n i : Nat) : Nat := if i = 0 then n - 1 else i - 1

/-- How many steps of `next` lead from `i` to `j`. -/
def dist (n i j : Nat) : Nat := if i ≤ j then j - i else j + n - i

theorem next_lt {n i : Nat} (h : 0 < n) : next n i < n := by
  unfold next; split <;> omega

theorem prev_lt {n i : Nat} (h : i < n) : prev n i < n := by
  unfold prev; split <;> omega

theorem next_prev {n i : Nat} (h : i < n) : next n (prev n i) = i := by
  unfold next prev; split <;> split <;> omega

theorem dist_lt {n i j : Nat} (hi : i < n) (hj : j < n) : dist n i j < n := by
  unfold dist; split <;> omega

/-- The first position from `i` on, among `fuel` of them, where `p` holds. -/
def seek (n : Nat) (p : Nat → Bool) : Nat → Nat → Option Nat
  | 0, _ => none
  | fuel + 1, i => if p i then some i else seek n p fuel (next n i)

end PerThread.Cyclic
