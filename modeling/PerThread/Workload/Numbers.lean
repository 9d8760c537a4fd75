import PerThread.Workload.Run

/-!
# Workloads on plain numbers

The values are signed 64-bit numbers. A child's value is the parent's plus a number of the key's own,
and sums wrap around.
-/

namespace PerThread.Workload.Numbers

def start (keys : List (UInt32 × Option Int64)) : Bench Int64 :=
  .start (keys.map fun k => (k.1, k.2.map fun addend value => value + addend))

def run (manual : Bool) (keys : List (UInt32 × Option Int64)) (steps : List (Step Int64)) :
    List (Report Int64) :=
  (start keys).run (fun _ value => value) manual steps

end PerThread.Workload.Numbers
