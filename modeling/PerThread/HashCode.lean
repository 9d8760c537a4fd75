/-!
# Hash codes

Every identity draws one code when it is made. Codes advance by a fixed odd step close to
`2 ^ 32 / φ`, wrapping in 32 bits. Because the step is odd, `2 ^ k` consecutive codes are pairwise
different modulo `2 ^ k`: identities made one after another start in different slots of any table
whose capacity is a power of two.
-/

namespace PerThread.HashCode

/-- The distance between consecutive codes. -/
def increment : UInt32 := 0x61c88647

/-- `next_hash_code`: the code drawn after `code`. -/
def next (code : UInt32) : UInt32 := code + increment

/-- The code drawn after `n` others, from a counter that stood at `start`. -/
def nth (start : UInt32) (n : Nat) : UInt32 := start + UInt32.ofNat n * increment

def draws (start : UInt32) (n : Nat) : List UInt32 := (List.range n).map (nth start)

theorem nth_zero (start : UInt32) : nth start 0 = start := by simp [nth]

theorem nth_succ (start : UInt32) (n : Nat) : nth start (n + 1) = next (nth start n) := by
  simp only [nth, next, UInt32.ofNat_add, UInt32.add_mul, UInt32.add_assoc]
  congr 2

/-- A code as text: eight hexadecimal digits after `0x`. -/
def text (code : UInt32) : String :=
  let digits := Nat.toDigits 16 code.toNat
  "0x" ++ String.ofList (List.replicate (8 - digits.length) '0' ++ digits)

end PerThread.HashCode
