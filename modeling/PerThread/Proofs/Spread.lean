import Mathlib.Data.Nat.ModEq
import PerThread.HashCode
import PerThread.Table.Basic

/-!
# How codes spread over a table

The distance between consecutive codes is odd, so it can be cancelled modulo every power of two: codes that are
fewer than `2 ^ k` draws apart differ modulo `2 ^ k`, wherever the counter stood. Wrapping in 32 bits does no harm
as long as `k` is at most 32.
-/

namespace PerThread.HashCode

variable {k i j m n : Nat} {start : UInt32}

theorem coprime_increment (k : Nat) : (2 ^ k).gcd increment.toNat = 1 := by
  have hodd : Nat.Coprime 2 increment.toNat := by decide
  exact hodd.pow_left k

/-- Up to multiples of `2 ^ k`, a code is what it would be without wrapping. -/
theorem toNat_nth_modEq (hk : k ≤ 32) (start : UInt32) (n : Nat) :
    (nth start n).toNat ≡ start.toNat + n * increment.toNat [MOD 2 ^ k] := by
  refine Nat.ModEq.of_dvd (Nat.pow_dvd_pow 2 hk) ?_
  unfold nth
  rw [UInt32.toNat_add, UInt32.toNat_mul, UInt32.toNat_ofNat']
  calc (start.toNat + n % 2 ^ 32 * increment.toNat % 2 ^ 32) % 2 ^ 32
      ≡ start.toNat + n % 2 ^ 32 * increment.toNat % 2 ^ 32 [MOD 2 ^ 32] := Nat.mod_modEq _ _
    _ ≡ start.toNat + n * increment.toNat [MOD 2 ^ 32] :=
      Nat.ModEq.add_left _ ((Nat.mod_modEq _ _).trans ((Nat.mod_modEq n _).mul_right _))

/-- Codes less than `2 ^ k` draws apart differ modulo `2 ^ k`. -/
theorem nth_spread (hk : k ≤ 32) (hi : i < 2 ^ k) (hj : j < 2 ^ k)
    (h : (nth start (m + i)).toNat ≡ (nth start (m + j)).toNat [MOD 2 ^ k]) : i = j := by
  have hsum : start.toNat + m * increment.toNat + i * increment.toNat ≡
      start.toNat + m * increment.toNat + j * increment.toNat [MOD 2 ^ k] := by
    have hboth := (toNat_nth_modEq hk start (m + i)).symm.trans (h.trans (toNat_nth_modEq hk start (m + j)))
    rwa [Nat.add_mul, Nat.add_mul, ← Nat.add_assoc, ← Nat.add_assoc] at hboth
  have hproduct := Nat.ModEq.add_left_cancel' _ hsum
  exact (hproduct.cancel_right_of_coprime (coprime_increment k)).eq_of_lt_of_lt hi hj

/-- In a table of `2 ^ k` slots, consecutive codes have homes of their own. -/
theorem home_spread {ν : Type} {t : Table ν} (hk : k ≤ 32) (hcap : t.capacity = 2 ^ k) (hi : i < 2 ^ k) (hj : j < 2 ^ k)
    (h : t.slots.home (nth start (m + i)) = t.slots.home (nth start (m + j))) : i = j := by
  have hsize : t.slots.size = 2 ^ k := hcap
  unfold Slots.home at h
  rw [hsize] at h
  exact nth_spread hk hi hj h

/-- No code comes up again before all have come up. -/
theorem nth_inj (hi : i < 2 ^ 32) (hj : j < 2 ^ 32) (h : nth start i = nth start j) : i = j := by
  have hmod : (nth start (0 + i)).toNat ≡ (nth start (0 + j)).toNat [MOD 2 ^ 32] := by
    rw [Nat.zero_add, Nat.zero_add, h]
  exact nth_spread (Nat.le_refl 32) hi hj hmod

/-- As many codes in a row as a ring of `2 ^ k` slots has slots are different there, and so are all codes that there are
if the ring has more slots than that. -/
theorem nth_mod_inj (hi : i < 2 ^ k) (hj : j < 2 ^ k) (hi' : i < 2 ^ 32) (hj' : j < 2 ^ 32)
    (h : (nth start i).toNat % 2 ^ k = (nth start j).toNat % 2 ^ k) : i = j := by
  by_cases hk : k ≤ 32
  · have hmod : (nth start (0 + i)).toNat ≡ (nth start (0 + j)).toNat [MOD 2 ^ k] := by
      rw [Nat.zero_add, Nat.zero_add]
      exact h
    exact nth_spread hk hi hj hmod
  · have hle : 2 ^ 32 ≤ 2 ^ k := Nat.pow_le_pow_right (by decide) (by omega)
    have hlt (code : UInt32) : code.toNat < 2 ^ k := Nat.lt_of_lt_of_le code.toNat_lt hle
    rw [Nat.mod_eq_of_lt (hlt _), Nat.mod_eq_of_lt (hlt _)] at h
    exact nth_inj hi' hj' (UInt32.toNat_inj.1 h)

end PerThread.HashCode
