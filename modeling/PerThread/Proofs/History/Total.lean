import PerThread.Proofs.History.Effect
import PerThread.Proofs.Table.Total

/-!
# Every operation comes to an end

A loop over the slots of a table stops because some slot is free, also while a run is being repaired; a lookup that
stays at a slot has dropped a stale entry there, and so has a scan that gets a new budget. What is proved of `Strict`
on sound tables holds at every moment of a history.
-/

namespace PerThread.Scene

open Table (Strict.insert Strict.get? Strict.erase Strict.sweep Strict.fork Strict.search Strict.go)

variable {ν : Type} {s : Scene ν}

/-- At any moment of a history every operation has an outcome, with loops that have no limit, with slots that have to
be there, and with a length that may not fall below zero; and it is the outcome that it has with all of these. A key
that is stored is held by the caller. A lookup looks at each slot once at most, and once more for each stale entry.
A scan of any sound table looks at as many slots as its budget lasts for, and at a logarithm of the capacity for each
of its hits, which are no more than there are stale entries. -/
theorem Reachable.comes_to_end (hs : s.Reachable) :
    (∀ key value, s.holders.live key = true →
      Strict.insert s.table s.holders.live key value = some (s.table.insert s.holders.live key value)) ∧
    (∀ key, Strict.get? s.table s.holders.live key = some (s.table.get? s.holders.live key)) ∧
    (∀ key, Strict.erase s.table s.holders.live key = some (s.table.erase s.holders.live key)) ∧
    Strict.sweep s.table s.holders.live = some (s.table.sweep s.holders.live) ∧
    (∀ childValue, Strict.fork s.table s.holders.live childValue =
      some (s.table.fork s.holders.live childValue)) ∧
    (∀ key, ∃ looks found u, looks ≤ s.table.capacity + s.table.staleCount s.holders.live ∧
      Strict.search s.holders.live key 0 (s.table.slots.home key.hash) s.table = some (looks, found, u)) ∧
    ∀ (t : Table ν) (i n : Nat), t.Sound → 1 ≤ n → ∃ r, Strict.go s.holders.live i n ⟨[], 0, t⟩ = some r ∧
      r.inspected.length ≤ n.log2 + 1 + r.hits * t.capacity.log2 ∧ r.hits ≤ t.staleCount s.holders.live := by
  have h := hs.coherent.wellFormed
  refine ⟨?_, ?_, ?_, ?_, ?_, ?_, ?_⟩
  · intro key value hlive
    exact Table.Strict.insert_eq h hlive value
  · intro key
    exact Table.Strict.get?_eq s.holders.live h.toSound key
  · intro key
    exact Table.Strict.erase_eq s.holders.live h.toSound key
  · exact Table.Strict.sweep_eq s.holders.live h.toSound
  · intro childValue
    exact Table.Strict.fork_eq h.toSound s.holders.live childValue
  · intro key
    obtain ⟨looks, found, out, u, hlooks, hsearch, -⟩ := Table.Strict.search_eq s.holders.live h.toSound key
    exact ⟨looks, found, u, hlooks, hsearch⟩
  · intro t i n ht _
    exact ⟨_, Table.Strict.go_of_limited ht (ht.go_scan s.holders.live i n), ht.scan_looks s.holders.live i n⟩

/-- Five identities have one hash code, and the second and the last have been let go of. A store of the third takes
over the slot of the second, and a lookup of the fourth, which stands behind it, drops the second. -/
theorem comes_to_end_between_stale :
    ∃ s : Scene Nat, s.Reachable ∧ s.table.capacity = 16 ∧ s.table.staleCount s.holders.live = 2 ∧
      (∃ u event, Strict.insert s.table s.holders.live ⟨2, 7⟩ 32 = some (u, event) ∧ u.len = 3) ∧
      ∃ looks found u, looks ≤ 18 ∧ Strict.search s.holders.live ⟨3, 7⟩ 0 7 s.table = some (looks, found, u) := by
  have hs := (reachable_first 7 20).run [.make 7, .set ⟨1, 7⟩ 21, .make 7, .set ⟨2, 7⟩ 22, .make 7,
    .set ⟨3, 7⟩ 23, .make 7, .set ⟨4, 7⟩ 24, .forget ⟨1, 7⟩, .forget ⟨4, 7⟩] rfl
  obtain ⟨hinsert, -, -, -, -, hsearch, -⟩ := hs.comes_to_end
  exact ⟨_, hs, rfl, rfl, ⟨_, _, hinsert ⟨2, 7⟩ 32 rfl, rfl⟩, hsearch ⟨3, 7⟩⟩

end PerThread.Scene
