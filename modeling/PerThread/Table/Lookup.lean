import PerThread.Table.Expunge

/-!
# Lookup

A search for an identity walks from its home and drops the stale entries it meets. Dropping one may
pull the sought entry into the very slot at hand, so the search looks at that slot again.
-/

namespace PerThread.Table

variable {ν : Type}

/-- `find`, and `find_after_miss` where it has to go on: searches for `key` from slot `i` on, with
at most `fuel` looks at a slot. Ends with the slot that holds it or with none, and with the table it
left. -/
def search (live : Liveness) (key : Identity) : Nat → Nat → Table ν → Option (Option Nat × Table ν)
  | 0, _, _ => none
  | fuel + 1, i, t =>
    match t.entryAt i with
    | none => some (none, t)
    | some e =>
      if e.belongs live key then some (some i, t)
      else if e.stale live then search live key fuel i (t.expunge live i).2
      else search live key fuel (t.next i) t

/-- Looks at a slot are bounded: one per slot, and one more per stale entry dropped. -/
def searchLimit (t : Table ν) (live : Liveness) : Nat := t.capacity + t.staleCount live

/-- `get`: the value of `key`, and the table without the stale entries met on the way. -/
def get? (t : Table ν) (live : Liveness) (key : Identity) : Option ν × Table ν :=
  let (found, u) :=
    (search live key (t.searchLimit live) (t.slots.home key.hash) t).getD (none, t)
  (found.bind fun i => (u.entryAt i).map Entry.value, u)

theorem capacity_search {live : Liveness} {key : Identity} {fuel i : Nat} {t : Table ν}
    {r : Option Nat × Table ν} (h : search live key fuel i t = some r) :
    r.2.capacity = t.capacity := by
  induction fuel generalizing i t with
  | zero => simp [search] at h
  | succ fuel ih =>
    unfold search at h
    split at h
    · cases h
      rfl
    · split at h
      · cases h
        rfl
      · split at h
        · simpa using ih h
        · exact ih h

/-- A lookup never changes the number of slots. -/
@[simp] theorem capacity_get? (t : Table ν) (live : Liveness) (key : Identity) :
    (t.get? live key).2.capacity = t.capacity := by
  unfold get?
  cases h : search live key (t.searchLimit live) (t.slots.home key.hash) t with
  | none => rfl
  | some r => simpa [h] using capacity_search h

end PerThread.Table
