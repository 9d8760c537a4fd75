/-!
# Data

The values that user code stores are trees of plain data. Two kinds of them can be computed with:
whole numbers within 64 bits, whose sums and products wrap around, and texts.
-/

namespace PerThread

/-- A tree of plain data. -/
inductive Datum where
  | null
  | flag (value : Bool)
  | number (value : Int)
  | text (value : String)
  | list (items : List Datum)
  | record (fields : List (String × Datum))
deriving Repr, BEq, Inhabited

namespace Datum

def ofInt64 (n : Int64) : Datum := .number n.toInt

def int64? : Datum → Option Int64
  | .number n => if Int64.minValue.toInt ≤ n ∧ n ≤ Int64.maxValue.toInt then some (.ofInt n) else none
  | _ => none

end Datum

end PerThread
