import Mathlib.Data.PFun
import PerThread.Table.Fork
import PerThread.Table.Insert
import PerThread.Table.Lookup

/-!
# The operations without a net

The operations on a table are total functions: a slot that is not there reads as a free one, a write to it does
nothing, the length of an empty table stays what it is, and a loop gets a limit together with an answer for the case
that the limit is too small. Here are the same operations with nothing of the kind. A slot that is read or written
has to be there, a length that is decreased has to be positive, and a loop goes on until it comes to its end; an
operation that misses any of this has no outcome. So has a scan that takes more looks than its budget and its hits
account for.
-/

namespace PerThread.Table.Strict

noncomputable section

variable {ν : Type}

/-! ## Loops -/

section

variable {σ β : Type}

/-- A step that may have no outcome. -/
def partially (step : σ → Option (β ⊕ σ)) : σ →. β ⊕ σ := fun s => Part.ofOption (step s)

open Classical in
/-- Steps taken until one of them ends the loop. There is no limit to their number: if each leads to another, then the
loop has no outcome. Nor has it one if a step has none. -/
def loop (step : σ → Option (β ⊕ σ)) (s : σ) : Option β := ((partially step).fix s).toOption

variable {step : σ → Option (β ⊕ σ)} {s s' : σ} {b : β}

open Classical in
theorem loop_end (h : step s = some (.inl b)) : loop step s = some b := by
  have hmem : b ∈ (partially step).fix s := PFun.fix_stop (Part.mem_ofOption.2 h)
  rwa [loop, Part.toOption_eq_some_iff]

theorem loop_on (h : step s = some (.inr s')) : loop step s = loop step s' := by
  have heq : (partially step).fix s = (partially step).fix s' := PFun.fix_fwd_eq (Part.mem_ofOption.2 h)
  unfold loop
  rw [heq]

end

/-! ## Slots -/

def read (s : Slots ν) (i : Nat) : Option (Option (Entry ν)) := s[i]?

def write (s : Slots ν) (i : Nat) (o : Option (Entry ν)) : Option (Slots ν) :=
  if i < s.size then some (s.put i o) else none

def decrease (n : Nat) : Option Nat := if 0 < n then some (n - 1) else none

/-- The first slot from `i` on whose content satisfies `p`. -/
def probe (p : Option (Entry ν) → Bool) (s : Slots ν) : Nat → Option Nat := loop fun i => do
  let o ← read s i
  some (if p o then .inl i else .inr (Cyclic.next s.size i))

def place (s : Slots ν) (e : Entry ν) : Option (Slots ν) := do
  let i ← probe Option.isNone s (s.home e.hash)
  write s i (some e)

/-! ## Taking entries out -/

def discard (t : Table ν) (i : Nat) : Option (Table ν) := do
  match ← read t.slots i with
  | none => some t
  | some e =>
    let slots ← write t.slots i none
    let len ← decrease t.len
    some { t with slots, len, reclaimed := t.reclaimed ++ [e.value] }

/-- The entry `e` of slot `i` moved to the first free slot from its home on. -/
def settle (t : Table ν) (i : Nat) (e : Entry ν) : Option (Table ν) := do
  let emptied ← write t.slots i none
  let slots ← place emptied e
  some { t with slots }

/-- What the repair of a run does with the entry `e` of slot `i`. -/
def pass (live : Liveness) (t : Table ν) (i : Nat) (e : Entry ν) : Option (Table ν) :=
  if e.stale live then discard t i else settle t i e

/-- A step of the walk along a run that has been broken. -/
def walkOn (live : Liveness) (w : Nat × Table ν) : Option ((Nat × Table ν) ⊕ (Nat × Table ν)) := do
  match ← read w.2.slots w.1 with
  | none => some (.inl w)
  | some e =>
    let u ← pass live w.2 w.1 e
    some (.inr (w.2.next w.1, u))

def repair (live : Liveness) (i : Nat) (t : Table ν) : Option (Nat × Table ν) := loop (walkOn live) (i, t)

def expunge (t : Table ν) (live : Liveness) (i : Nat) : Option (Nat × Table ν) := do
  let u ← discard t i
  repair live (u.next i) u

/-- A slot expunged if its entry is stale. -/
def visit (live : Liveness) (t : Table ν) (i : Nat) : Option (Table ν) := do
  let o ← read t.slots i
  if o.any (·.stale live) then
    let r ← expunge t live i
    some r.2
  else some t

def sweep (t : Table ν) (live : Liveness) : Option (Table ν) := (List.range t.capacity).foldlM (visit live) t

def erase (t : Table ν) (live : Liveness) (key : Identity) : Option (Table ν) := do
  let i ← probe (·.all (·.belongs live key)) t.slots (t.slots.home key.hash)
  let o ← read t.slots i
  if o.isSome then
    let r ← expunge t live i
    some r.2
  else some t

/-! ## Lookup -/

/-- A search under way: the number of looks taken so far, the slot to look at next, and the table. -/
structure Search (ν : Type) where
  looks : Nat
  slot : Nat
  table : Table ν

/-- A look of a search. A slot from which a stale entry was dropped is looked at again. -/
def searchOn (live : Liveness) (key : Identity) (s : Search ν) : Option ((Nat × Option Nat × Table ν) ⊕ Search ν) := do
  match ← read s.table.slots s.slot with
  | none => some (.inl (s.looks + 1, none, s.table))
  | some e =>
    if e.belongs live key then some (.inl (s.looks + 1, some s.slot, s.table))
    else if e.stale live then
      let r ← expunge s.table live s.slot
      some (.inr ⟨s.looks + 1, s.slot, r.2⟩)
    else some (.inr ⟨s.looks + 1, s.table.next s.slot, s.table⟩)

/-- A search, with the number of looks taken before it. Ends with the number of looks taken in all. -/
def search (live : Liveness) (key : Identity) (looks i : Nat) (t : Table ν) : Option (Nat × Option Nat × Table ν) :=
  loop (searchOn live key) ⟨looks, i, t⟩

def get? (t : Table ν) (live : Liveness) (key : Identity) : Option (Option ν × Table ν) := do
  let r ← search live key 0 (t.slots.home key.hash) t
  match r.2.1 with
  | none => some (none, r.2.2)
  | some i =>
    let o ← read r.2.2.slots i
    some (o.map Entry.value, r.2.2)

/-! ## Scanning -/

def look (live : Liveness) (i n : Nat) (s : Scan ν) : Option (Nat × Nat × Scan ν) := do
  let j := s.table.next i
  let o ← read s.table.slots j
  if o.any (·.stale live) then
    let cleaned ← expunge s.table live j
    some (cleaned.1, s.table.capacity / 2, ⟨j :: s.inspected, s.hits + 1, cleaned.2⟩)
  else some (j, n / 2, { s with inspected := j :: s.inspected })

/-- Looks at slots until the budget is used up. -/
def go (live : Liveness) (i n : Nat) (s : Scan ν) : Option (Scan ν) :=
  loop (fun l : Nat × Nat × Scan ν => do
    let r ← look live l.1 l.2.1 l.2.2
    some (if r.2.1 = 0 then .inl r.2.2 else .inr r)) (i, n, s)

/-- A scan that keeps to its account. -/
def scan (t : Table ν) (live : Liveness) (i n : Nat) : Option (Scan ν) := do
  let r ← go live i n ⟨[], 0, t⟩
  if r.inspected.length ≤ n.log2 + 1 + r.hits * t.capacity.log2 ∧ r.hits ≤ t.staleCount live then some r else none

def clean (t : Table ν) (live : Liveness) (i : Nat) : Option (Table ν) := do
  let r ← expunge t live i
  let s ← scan r.2 live r.1 r.2.capacity
  some s.table

/-! ## Insertion -/

def overwrite (t : Table ν) (i : Nat) (value : ν) : Option (Table ν) := do
  match ← read t.slots i with
  | none => some t
  | some e =>
    let slots ← write t.slots i (some { e with value })
    some { t with slots, reclaimed := t.reclaimed ++ [e.value] }

def exchange (t : Table ν) (i j : Nat) : Option (Table ν) := do
  let a ← read t.slots i
  let b ← read t.slots j
  let first ← write t.slots i b
  let slots ← write first j a
  some { t with slots }

def replace (t : Table ν) (i : Nat) (e : Entry ν) : Option (Table ν) := do
  let old ← read t.slots i
  let slots ← write t.slots i (some e)
  some { t with slots, reclaimed := t.reclaimed ++ (old.map Entry.value).toList }

/-- A step of the walk backwards for the earliest stale slot: the slot at hand, and the best one so far. -/
def backOn (t : Table ν) (live : Liveness) (w : Nat × Nat) : Option (Nat ⊕ (Nat × Nat)) := do
  match ← read t.slots w.1 with
  | none => some (.inl w.2)
  | some e => some (.inr (t.prev w.1, if e.stale live then w.1 else w.2))

def earliestStale (t : Table ν) (live : Liveness) (i best : Nat) : Option Nat := loop (backOn t live) (i, best)

def anchor (t : Table ν) (live : Liveness) (key : Identity) (i : Nat) : Option Nat := do
  let behind ← earliestStale t live (t.prev i) i
  if behind ≠ i then some behind
  else
    let j ← probe (·.all fun e => e.belongs live key || e.stale live) t.slots (t.next i)
    let o ← read t.slots j
    some (if o.isSome then j else i)

def takeOver (t : Table ν) (live : Liveness) (key : Identity) (value : ν) (i : Nat) : Option (Table ν) := do
  let start ← anchor t live key i
  let j ← probe (·.all (·.belongs live key)) t.slots (t.next i)
  let o ← read t.slots j
  if o.isSome then
    let u ← overwrite t j value
    let v ← exchange u j i
    clean v live start
  else
    let u ← replace t i (.of key value)
    if start = i then some u else clean u live start

def resettle (live : Liveness) (u : Table ν) (e : Entry ν) : Option (Table ν) :=
  if e.stale live then some { u with reclaimed := u.reclaimed ++ [e.value] }
  else do
    let slots ← place u.slots e
    some { u with slots, len := u.len + 1 }

def grow (t : Table ν) (live : Liveness) : Option (Table ν) :=
  t.entries.foldlM (resettle live) { empty (2 * t.capacity) with reclaimed := t.reclaimed }

def makeRoom (t : Table ν) (live : Liveness) : Option (Table ν × Event) := do
  let u ← sweep t live
  if u.len ≥ u.threshold - u.threshold / 4 then
    let v ← grow u live
    some (v, .resized u.capacity v.capacity v.len)
  else some (u, .roomReclaimed u.capacity u.len)

def fill (t : Table ν) (live : Liveness) (e : Entry ν) (i : Nat) : Option (Table ν × Option Event) := do
  let slots ← write t.slots i (some e)
  let u : Table ν := { t with slots, len := t.len + 1 }
  let scanned ← scan u live i u.len
  if scanned.hits = 0 ∧ scanned.table.len ≥ scanned.table.threshold then
    let r ← makeRoom scanned.table live
    some (r.1, some r.2)
  else some (scanned.table, none)

def insert (t : Table ν) (live : Liveness) (key : Identity) (value : ν) : Option (Table ν × Option Event) := do
  let i ← probe (·.all fun e => e.belongs live key || e.stale live) t.slots (t.slots.home key.hash)
  match ← read t.slots i with
  | none => fill t live (.of key value) i
  | some e =>
    if e.belongs live key then
      let u ← overwrite t i value
      some (u, none)
    else
      let u ← takeOver t live key value i
      some (u, none)

/-! ## A child's table -/

def inherit (child : Table ν) (e : Entry ν) (value : ν) : Option (Table ν) := do
  let slots ← place child.slots { e with value }
  some { child with slots, len := child.len + 1 }

/-- What becomes of one entry of the parent. -/
def bequeath (live : Liveness) (childValue : Identity → ν → Option ν) (child : Table ν) (e : Entry ν) :
    Option (Table ν) :=
  if live e.key then
    match childValue e.key e.value with
    | some value => inherit child e value
    | none => some child
  else some child

def fork (parent : Table ν) (live : Liveness) (childValue : Identity → ν → Option ν) : Option (Table ν) :=
  parent.entries.foldlM (bequeath live childValue) (empty parent.capacity)

end

end PerThread.Table.Strict
