import PerThread.Table.Basic

/-!
# Taking entries out

A slot must not simply be emptied: an entry further on may rely on it to be found. So whoever
empties a slot also walks the rest of the run, up to the next free slot, drops what is stale there,
and puts every live entry into the first free slot from its home on. An entry's own slot has just
been emptied at that moment, so it moves towards its home or stays.
-/

namespace PerThread.Table

variable {ν : Type}

/-- Slot `i` emptied, and its value given up. -/
def discard (t : Table ν) (i : Nat) : Table ν :=
  match t.entryAt i with
  | none => t
  | some e =>
    { t with slots := t.slots.put i none, len := t.len - 1, reclaimed := t.reclaimed ++ [e.value] }

/-- The entry `e` of slot `i` moved to the first free slot from its home on. -/
def settle (t : Table ν) (i : Nat) (e : Entry ν) : Table ν :=
  { t with slots := (t.slots.put i none).place e }

/-- The walk of `expunge_stale_entry` along the run from slot `i` on, for at most `fuel` slots:
drops stale entries and settles the others. Ends with the free slot behind the run; ends with
nothing if `fuel` slots do not reach it. -/
def repair (live : Liveness) : Nat → Nat → Table ν → Option (Nat × Table ν)
  | 0, _, _ => none
  | fuel + 1, i, t =>
    match t.entryAt i with
    | none => some (i, t)
    | some e => repair live fuel (t.next i) (if e.stale live then t.discard i else t.settle i e)

/-- `expunge_stale_entry`: empties slot `i` and repairs its run. Also tells the free slot behind the
run. Slot `i` itself is free then, so the walk ends within one round. -/
def expunge (t : Table ν) (live : Liveness) (i : Nat) : Nat × Table ν :=
  let u := t.discard i
  (repair live u.capacity (u.next i) u).getD (i, u)

/-- `expunge_stale_entries`: expunges every stale entry. -/
def sweep (t : Table ν) (live : Liveness) : Table ν :=
  (List.range t.capacity).foldl (fun u i => if u.staleAt live i then (u.expunge live i).2 else u) t

/-- `remove`: takes the entry of `key` out, if there is one. Stale entries on the way stay. -/
def erase (t : Table ν) (live : Liveness) (key : Identity) : Table ν :=
  match t.slots.seek (·.all (·.belongs live key)) (t.slots.home key.hash) with
  | none => t
  | some i => if (t.entryAt i).isSome then (t.expunge live i).2 else t

/-! ## The number of slots stays -/

@[simp] theorem capacity_discard (t : Table ν) (i : Nat) : (t.discard i).capacity = t.capacity := by
  unfold discard
  split <;> simp [capacity]

@[simp] theorem capacity_settle (t : Table ν) (i : Nat) (e : Entry ν) :
    (t.settle i e).capacity = t.capacity := by
  simp [settle, capacity]

theorem capacity_repair {live : Liveness} {fuel i : Nat} {t : Table ν} {r : Nat × Table ν}
    (h : repair live fuel i t = some r) : r.2.capacity = t.capacity := by
  induction fuel generalizing i t with
  | zero => simp [repair] at h
  | succ fuel ih =>
    unfold repair at h
    split at h
    · cases h
      rfl
    · rw [ih h]
      split <;> simp

@[simp] theorem capacity_expunge (t : Table ν) (live : Liveness) (i : Nat) :
    (t.expunge live i).2.capacity = t.capacity := by
  unfold expunge
  dsimp only
  cases h : repair live (t.discard i).capacity ((t.discard i).next i) (t.discard i) with
  | none => exact capacity_discard t i
  | some r => exact (capacity_repair h).trans (capacity_discard t i)

@[simp] theorem capacity_sweep (t : Table ν) (live : Liveness) :
    (t.sweep live).capacity = t.capacity := by
  unfold sweep
  generalize List.range t.capacity = slots
  induction slots generalizing t with
  | nil => rfl
  | cons i rest ih =>
    rw [List.foldl_cons, ih]
    split <;> simp

@[simp] theorem capacity_erase (t : Table ν) (live : Liveness) (key : Identity) :
    (t.erase live key).capacity = t.capacity := by
  unfold erase
  split
  · rfl
  · split <;> simp

end PerThread.Table
