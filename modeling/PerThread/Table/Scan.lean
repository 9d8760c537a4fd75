import PerThread.Table.Expunge

/-!
# Scanning for stale entries

After an insertion a few slots are looked at for stale entries: about the logarithm of a budget,
since the budget is halved at every slot. A find resets the budget to the capacity, so a region that
holds garbage is cleaned thoroughly, and a clean one costs little.
-/

namespace PerThread.Table

variable {ν : Type}

structure Scan (ν : Type) where
  /-- The slots looked at, the latest first. -/
  inspected : List Nat
  /-- How many of them held a stale entry. -/
  hits : Nat
  table : Table ν

/-- One turn of `clean_some_slots`: looks at the slot behind `i` with budget `n`. Gives the slot to
go on from, the budget left, and the scan so far. -/
def Scan.look (live : Liveness) (i n : Nat) (s : Scan ν) : Nat × Nat × Scan ν :=
  let j := s.table.next i
  if s.table.staleAt live j then
    let cleaned := s.table.expunge live j
    (cleaned.1, s.table.capacity / 2, ⟨j :: s.inspected, s.hits + 1, cleaned.2⟩)
  else (j, n / 2, { s with inspected := j :: s.inspected })

/-- Goes on with a scan behind slot `i` with budget `n`, for at most `fuel` slots; nothing if the
budget lasts longer. -/
def Scan.go (live : Liveness) : Nat → Nat → Nat → Scan ν → Option (Scan ν)
  | 0, _, _, _ => none
  | fuel + 1, i, n, s =>
    let r := s.look live i n
    if r.2.1 = 0 then some r.2.2 else go live fuel r.1 r.2.1 r.2.2

/-- The number of slots after which a scan with budget `n` has certainly ended: the budget's
logarithm, and for each stale entry a logarithm of the capacity. -/
def scanLimit (t : Table ν) (live : Liveness) (n : Nat) : Nat :=
  n.log2 + 1 + t.staleCount live * t.capacity.log2

/-- `clean_some_slots`: scans behind slot `i` with budget `n`. -/
def scan (t : Table ν) (live : Liveness) (i n : Nat) : Scan ν :=
  (Scan.go live (t.scanLimit live n) i n ⟨[], 0, t⟩).getD ⟨[], 0, t⟩

@[simp] theorem Scan.capacity_look (live : Liveness) (i n : Nat) (s : Scan ν) :
    (s.look live i n).2.2.table.capacity = s.table.capacity := by
  unfold look
  dsimp only
  split <;> simp

theorem Scan.capacity_go {live : Liveness} {fuel i n : Nat} {s r : Scan ν}
    (h : Scan.go live fuel i n s = some r) : r.table.capacity = s.table.capacity := by
  induction fuel generalizing i n s with
  | zero => simp [Scan.go] at h
  | succ fuel ih =>
    simp only [Scan.go] at h
    split at h
    · cases h
      simp
    · simpa using ih h

@[simp] theorem capacity_scan (t : Table ν) (live : Liveness) (i n : Nat) :
    (t.scan live i n).table.capacity = t.capacity := by
  unfold scan
  cases h : Scan.go live (t.scanLimit live n) i n ⟨[], 0, t⟩ with
  | none => rfl
  | some r => exact Scan.capacity_go h

end PerThread.Table
