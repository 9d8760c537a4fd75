import PerThread.Proofs.Table.Rebuild
import PerThread.Proofs.Table.TakeOver

/-!
# Histories

A table among its users: identities are made and let go of at any time, and between two such moments an
operation works on the table with the identities that are held then. A `Scene` is one moment. Beside the
table it has two records that no operation reads: the values that were taken out of the table, and the
largest number of live entries there was at any moment.

Only held identities can be asked for, since an operation is called with the identity at hand; `step?`
has no outcome otherwise. A fresh identity may have any hash code, that of an older one included.

| here | there |
| --- | --- |
| `Scene.first` | the first store of a thread makes the table |
| `Op` | one call, or an identity made or let go of between two calls |
| `Scene.fork`, `Scene.copy` | the table a child starts with, and a clone; the history goes on with it |
| `Scene.Reachable` | what all of these lead to |
-/

namespace PerThread

variable {ν : Type}

/-! ## Who is held -/

/-- The identities made so far, and which of them are still held. -/
structure Holders where
  /-- The number of identities made. -/
  made : Nat
  live : Liveness
  made_of_live : ∀ key, live key = true → key.serial < made

namespace Holders

def nobody : Holders := ⟨0, fun _ => false, by simp⟩

/-- The identity that comes next, with a hash code at will. -/
def fresh (h : Holders) (hash : UInt32) : Identity := ⟨h.made, hash⟩

/-- The next identity is made, and held. -/
def make (h : Holders) (hash : UInt32) : Holders where
  made := h.made + 1
  live key := key == h.fresh hash || h.live key
  made_of_live key hkey := by
    rcases Bool.or_eq_true_iff.1 hkey with heq | hlive
    · rw [eq_of_beq heq]
      exact Nat.lt_succ_self _
    · exact Nat.lt_succ_of_lt (h.made_of_live key hlive)

/-- The last holder of `key` lets go of it. -/
def forget (h : Holders) (key : Identity) : Holders where
  made := h.made
  live other := other != key && h.live other
  made_of_live other hother := h.made_of_live other (Bool.and_eq_true_iff.1 hother).2

/-- Not let go of: held, or not made yet. -/
def Ahead (h : Holders) (key : Identity) : Prop := h.live key = true ∨ h.made ≤ key.serial

theorem live_fresh (h : Holders) (hash : UInt32) : (h.make hash).live (h.fresh hash) = true := by
  simp [make]

end Holders

/-! ## Operations -/

/-- What can happen to a table. -/
inductive Op (ν : Type) where
  | make (hash : UInt32)
  | forget (key : Identity)
  | set (key : Identity) (value : ν)
  | get (key : Identity)
  | remove (key : Identity)
  /-- The values given up are taken. -/
  | take
  | sweep

namespace Op

/-- The identity that the operation is called with. -/
def subject? : Op ν → Option Identity
  | .set key _ | .get key | .remove key => some key
  | _ => none

def holders (h : Holders) : Op ν → Holders
  | .make hash => h.make hash
  | .forget key => h.forget key
  | _ => h

def table (live : Liveness) (t : Table ν) : Op ν → Table ν
  | .set key value => (t.insert live key value).1
  | .get key => (t.get? live key).2
  | .remove key => t.erase live key
  | .take => t.takeReclaimed.2
  | .sweep => t.sweep live
  | .make _ | .forget _ => t

/-- The values that the caller takes. -/
def handed (t : Table ν) : Op ν → List ν
  | .take => t.takeReclaimed.1
  | _ => []

/-- What the operation, as its caller sees it, makes of the value of `key`; `none` if it is not about
that. -/
def write? (key : Identity) : Op ν → Option (Option ν)
  | .set k value => if k = key then some (some value) else none
  | .remove k => if k = key then some none else none
  | _ => none

def passed? : Op ν → Option ν
  | .set _ value => some value
  | _ => none

end Op

/-! ## Moments -/

/-- A table among its users. -/
structure Scene (ν : Type) where
  holders : Holders
  table : Table ν
  /-- The values passed in so far; those that a child or a copy starts with come first. -/
  stored : List ν
  /-- The values taken so far. -/
  taken : List ν
  /-- The largest number of live entries so far. -/
  peak : Nat

/-- The number of entries that can be asked for. -/
def Table.liveCount (t : Table ν) (live : Liveness) : Nat := t.entries.countP (!·.stale live)

namespace Scene

/-- What a table can answer for `key`. -/
def look (s : Scene ν) (key : Identity) : Option ν := (s.table.get? s.holders.live key).1

def first (h : Holders) (key : Identity) (value : ν) : Scene ν :=
  let t := Table.singleton key value
  ⟨h, t, [value], [], t.liveCount h.live⟩

def after (s : Scene ν) (op : Op ν) : Scene ν :=
  let holders := op.holders s.holders
  let t := op.table s.holders.live s.table
  ⟨holders, t, s.stored ++ op.passed?.toList, s.taken ++ op.handed s.table,
    max s.peak (t.liveCount holders.live)⟩

/-- One step. An operation is called with an identity that is held. -/
def step? (s : Scene ν) (op : Op ν) : Option (Scene ν) :=
  if op.subject?.all s.holders.live then some (s.after op) else none

/-- One step after another. -/
def run? (s : Scene ν) (ops : List (Op ν)) : Option (Scene ν) := ops.foldlM step? s

def fork (s : Scene ν) (childValue : Identity → ν → Option ν) : Scene ν :=
  let t := s.table.fork s.holders.live childValue
  ⟨s.holders, t, t.values, [], max s.peak (t.liveCount s.holders.live)⟩

def copy (s : Scene ν) : Scene ν :=
  { s with table := s.table.copy, stored := s.table.copy.values, taken := [] }

/-- The scenes of all histories. -/
inductive Reachable : Scene ν → Prop
  | first (h : Holders) {key : Identity} (hlive : h.live key = true) (value : ν) :
      Reachable (first h key value)
  | step {s s' : Scene ν} (op : Op ν) (hs : Reachable s) (hstep : s.step? op = some s') : Reachable s'
  | fork {s : Scene ν} (childValue : Identity → ν → Option ν) (hs : Reachable s) :
      Reachable (s.fork childValue)
  | copy {s : Scene ν} (hs : Reachable s) : Reachable s.copy

/-! ## Steps and runs -/

variable {s s' : Scene ν} {op : Op ν}

theorem step?_eq_some_iff :
    s.step? op = some s' ↔ (∀ key ∈ op.subject?, s.holders.live key = true) ∧ s' = s.after op := by
  unfold step?
  rw [Option.ite_none_right_eq_some, Option.all_eq_true]
  exact and_congr_right fun _ => Option.some_inj.trans eq_comm

theorem run?_cons {ops : List (Op ν)} :
    s.run? (op :: ops) = some s' ↔ ∃ m, s.step? op = some m ∧ m.run? ops = some s' := by
  unfold run?
  rw [List.foldlM_cons]
  exact Option.bind_eq_some_iff

/-- A history that begins with the first identity of all. -/
theorem reachable_first (hash : UInt32) (value : ν) :
    (first (.make .nobody hash) ⟨0, hash⟩ value).Reachable :=
  .first _ (Holders.nobody.live_fresh hash) value

theorem Reachable.run (hs : s.Reachable) (ops : List (Op ν)) (hrun : s.run? ops = some s') :
    s'.Reachable := by
  induction ops generalizing s with
  | nil =>
    cases hrun
    exact hs
  | cons op rest ih =>
    obtain ⟨m, hstep, hrest⟩ := run?_cons.1 hrun
    exact ih (hs.step op hstep) hrest

/-- What has been let go of stays so. -/
theorem ahead_of_after {key : Identity} (h : (s.after op).holders.Ahead key) : s.holders.Ahead key := by
  unfold Holders.Ahead at h ⊢
  cases op with
  | make hash =>
    simp only [after, Op.holders, Holders.make, Holders.fresh, Bool.or_eq_true, beq_iff_eq] at h
    rcases h with (rfl | hlive) | hle
    · exact Or.inr (Nat.le_refl _)
    · exact Or.inl hlive
    · exact Or.inr (Nat.le_of_succ_le hle)
  | forget k =>
    simp only [after, Op.holders, Holders.forget, Bool.and_eq_true] at h
    exact h.imp And.right id
  | _ => exact h

end Scene

end PerThread
