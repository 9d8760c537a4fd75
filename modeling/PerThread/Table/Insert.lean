import PerThread.Table.Scan

/-!
# Insertion

A search for the key ends at its own entry, at a free slot, or at a stale entry. Its own entry gets
the new value. A free slot takes a new entry, a scan follows, and a table that is full although the
scan found nothing makes room. A stale entry's slot is taken over, since it is nearer to home than any
slot behind it; the rest of the run is then cleaned.
-/

namespace PerThread.Table

variable {ν : Type}

/-- `overwrite`: the value in slot `i` replaced, and the old one given up. -/
def overwrite (t : Table ν) (i : Nat) (value : ν) : Table ν :=
  match t.entryAt i with
  | none => t
  | some e =>
    { t with slots := t.slots.put i (some { e with value }), reclaimed := t.reclaimed ++ [e.value] }

def exchange (t : Table ν) (i j : Nat) : Table ν :=
  { t with slots := (t.slots.put i (t.entryAt j)).put j (t.entryAt i) }

/-- The whole entry in slot `i` replaced, and the old value given up. -/
def replace (t : Table ν) (i : Nat) (e : Entry ν) : Table ν :=
  { t with slots := t.slots.put i (some e)
           reclaimed := t.reclaimed ++ ((t.entryAt i).map Entry.value).toList }

/-- The walk of `replace_stale_entry` backwards: the earliest stale slot among those that lead up to
slot `i`, without a gap, and `best` if none of them is stale. At most `fuel` slots are visited. -/
def earliestStale (t : Table ν) (live : Liveness) : Nat → Nat → Nat → Option Nat
  | 0, _, _ => none
  | fuel + 1, i, best =>
    match t.entryAt i with
    | none => some best
    | some e => earliestStale t live fuel (t.prev i) (if e.stale live then i else best)

/-! ## Taking over a stale slot -/

/-- Where the run of the stale slot `i` is to be expunged from, once `i` has been taken over for
`key`: the earliest other stale slot of the run, as far as the search for `key` looks ahead, or else
the slot that `key` moves out of; `i` itself means that there is no such slot. -/
def anchor (t : Table ν) (live : Liveness) (key : Identity) (i : Nat) : Nat :=
  let behind := (t.earliestStale live t.capacity (t.prev i) i).getD i
  if behind ≠ i then behind
  else
    match t.slots.seek (·.all fun e => e.belongs live key || e.stale live) (t.next i) with
    | none => i
    | some j => if (t.entryAt j).isSome then j else i

/-- Expunges slot `i`, then scans behind its run with the capacity as budget. -/
def clean (t : Table ν) (live : Liveness) (i : Nat) : Table ν :=
  let (resume, u) := t.expunge live i
  (u.scan live resume u.capacity).table

/-- `replace_stale_entry`: stores `value` for `key` in slot `i`, which holds the first stale entry
on the way from the home of `key`. An entry of `key` further on moves here, and the stale one takes
its place to be dropped there. -/
def takeOver (t : Table ν) (live : Liveness) (key : Identity) (value : ν) (i : Nat) : Table ν :=
  let start := t.anchor live key i
  let own := (t.slots.seek (·.all (·.belongs live key)) (t.next i)).filter
    fun j => (t.entryAt j).isSome
  match own with
  | some j => ((t.overwrite j value).exchange j i).clean live start
  | none =>
    let u := t.replace i (.of key value)
    if start = i then u else u.clean live start

/-! ## Making room -/

/-- An entry of a table that doubles: a live one is placed anew in `u`, and a stale one's value is given up. -/
def resettle (live : Liveness) (u : Table ν) (e : Entry ν) : Table ν :=
  if e.stale live then { u with reclaimed := u.reclaimed ++ [e.value] }
  else { u with slots := u.slots.place e, len := u.len + 1 }

/-- `resize`: twice the slots, with the live entries placed anew in slot order. -/
def grow (t : Table ν) (live : Liveness) : Table ν :=
  t.entries.foldl (resettle live) { empty (2 * t.capacity) with reclaimed := t.reclaimed }

/-- `rehash`: drops all stale entries, and doubles the table if it is still three quarters as full
as its threshold allows. -/
def makeRoom (t : Table ν) (live : Liveness) : Table ν × Event :=
  let u := t.sweep live
  if u.len ≥ u.threshold - u.threshold / 4 then
    let v := u.grow live
    (v, .resized u.capacity v.capacity v.len)
  else (u, .roomReclaimed u.capacity u.len)

/-- The end of `set` at a free slot `i`. -/
def fill (t : Table ν) (live : Liveness) (e : Entry ν) (i : Nat) : Table ν × Option Event :=
  let u := { t with slots := t.slots.put i (some e), len := t.len + 1 }
  let scanned := u.scan live i u.len
  if scanned.hits = 0 ∧ scanned.table.len ≥ scanned.table.threshold then
    let (v, event) := scanned.table.makeRoom live
    (v, some event)
  else (scanned.table, none)

/-- `set`: stores `value` for `key`, and tells what became of a table that was full. -/
def insert (t : Table ν) (live : Liveness) (key : Identity) (value : ν) : Table ν × Option Event :=
  match t.slots.seek (·.all fun e => e.belongs live key || e.stale live) (t.slots.home key.hash) with
  | none => (t, none)
  | some i =>
    match t.entryAt i with
    | none => t.fill live (.of key value) i
    | some e =>
      if e.belongs live key then (t.overwrite i value, none)
      else (t.takeOver live key value i, none)

/-! ## The number of slots -/

@[simp] theorem capacity_overwrite (t : Table ν) (i : Nat) (value : ν) :
    (t.overwrite i value).capacity = t.capacity := by
  unfold overwrite
  split <;> simp [capacity]

@[simp] theorem capacity_exchange (t : Table ν) (i j : Nat) :
    (t.exchange i j).capacity = t.capacity := by
  simp [exchange, capacity]

@[simp] theorem capacity_replace (t : Table ν) (i : Nat) (e : Entry ν) :
    (t.replace i e).capacity = t.capacity := by
  simp [replace, capacity]

@[simp] theorem capacity_clean (t : Table ν) (live : Liveness) (i : Nat) :
    (t.clean live i).capacity = t.capacity := by
  simp [clean]

@[simp] theorem capacity_takeOver (t : Table ν) (live : Liveness) (key : Identity) (value : ν)
    (i : Nat) : (t.takeOver live key value i).capacity = t.capacity := by
  unfold takeOver
  dsimp only
  split
  · simp
  · split <;> simp

@[simp] theorem capacity_resettle (live : Liveness) (u : Table ν) (e : Entry ν) :
    (resettle live u e).capacity = u.capacity := by
  unfold resettle
  split <;> simp [capacity]

@[simp] theorem capacity_grow (t : Table ν) (live : Liveness) : (t.grow live).capacity = 2 * t.capacity := by
  have capacity_foldl (entries : List (Entry ν)) (u : Table ν) :
      (entries.foldl (resettle live) u).capacity = u.capacity := by
    induction entries generalizing u with
    | nil => rfl
    | cons e rest ih => simp [ih]
  unfold grow
  rw [capacity_foldl]
  exact capacity_empty _

end PerThread.Table
