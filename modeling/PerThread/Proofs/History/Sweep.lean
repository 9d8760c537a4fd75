import PerThread.Proofs.History.Growth
import PerThread.Proofs.History.Homeward

/-!
# Sweeping

A sweep goes through the slots by index and expunges each that is stale when its turn comes. Expunging moves entries
around, also across the end of the ring and into slots whose turn is over. It moves live entries only, so that no slot
behind the index ever becomes stale, and the sweep need not come back to any.
-/

namespace PerThread

variable {ν : Type} {live : Liveness} {t : Table ν}

namespace Table

/-- The sweep when the slots below `n` have had their turn. -/
def sweepTo (live : Liveness) (t : Table ν) (n : Nat) : Table ν :=
  (List.range n).foldl (fun u i => if u.staleAt live i then (u.expunge live i).2 else u) t

/-- At any time of a sweep the table is well-formed, and no slot that has had its turn is stale. -/
theorem WellFormed.sweepTo (h : t.WellFormed) (live : Liveness) (n : Nat) :
    (t.sweepTo live n).WellFormed ∧ ∀ x < n, (t.sweepTo live n).staleAt live x = false := by
  obtain ⟨out, hc, hclean⟩ := h.toSound.foldl_expunge live (List.range n)
  exact ⟨h.of_cleaned hc, fun x hx => hclean x (List.mem_range.2 hx)⟩

/-- What leaves if everything stale does. -/
theorem Cleaned.perm_stale {u : Table ν} {out : List (Entry ν)} (h : t.Cleaned live out u)
    (hclean : ∀ e ∈ u.entries, e.stale live = false) : out.Perm (t.entries.filter (·.stale live)) := by
  have hperm := h.turnover.entries.filter (·.stale live)
  have hnone : u.entries.filter (·.stale live) = [] :=
    List.filter_eq_nil_iff.2 fun e he => by simp [hclean e he]
  rw [List.append_nil, List.filter_append, hnone, List.append_nil, List.filter_eq_self.2 h.stale] at hperm
  exact hperm.symm

end Table

namespace Scene

variable {s : Scene ν}

/-- A sweep drops everything stale, whatever is stale, and nothing else. While it goes on, no slot below its index
becomes stale. -/
theorem Reachable.sweep_complete (hs : s.Reachable) (live : Liveness) :
    (∀ n, (s.table.sweepTo live n).WellFormed ∧ ∀ x < n, (s.table.sweepTo live n).staleAt live x = false) ∧
    s.table.sweep live = s.table.sweepTo live s.table.capacity ∧
    (∀ e ∈ (s.table.sweep live).entries, e.stale live = false) ∧
    (s.table.sweep live).len = s.table.liveCount live ∧
    (∀ key, live key = true → (s.table.sweep live).valueOf? key = s.table.valueOf? key ∧
      ((s.table.sweep live).get? live key).1 = (s.table.get? live key).1) ∧
    (s.table.sweep live).capacity = s.table.capacity ∧
    (s.table.sweep live).WellFormed ∧
    ∃ gone, (s.table.sweep live).reclaimed = s.table.reclaimed ++ gone ∧
      gone.Perm ((s.table.entries.filter (·.stale live)).map Entry.value) := by
  have h := hs.coherent.wellFormed
  obtain ⟨out, hc, hclean⟩ := h.toSound.sweep live
  have hwf := h.of_cleaned hc
  refine ⟨h.sweepTo live, rfl, hclean, h.toSound.len_sweep live, fun key hlive => ?_, hc.capacity_eq, hwf,
    out.map Entry.value, hc.turnover.reclaimed, (hc.perm_stale hclean).map Entry.value⟩
  have hvalue := hc.valueOf? h.toSound hlive
  obtain ⟨-, -, -, -, -, hbefore⟩ := h.get? hlive
  obtain ⟨-, -, -, -, -, hafter⟩ := hwf.get? hlive
  exact ⟨hvalue, by rw [hbefore, hafter, hvalue]⟩

/-- Slots 15 and 1 are stale. The sweep comes to slot 1 first; at slot 15, its last, it moves the others into slots that
have had their turn. -/
theorem sweep_complete_across_end :
    ∃ s : Scene Nat, s.Reachable ∧ s.table.staleAt s.holders.live 15 = true ∧ s.table.staleAt s.holders.live 1 = true ∧
      (s.table.sweep s.holders.live).len = 3 ∧
      ((s.table.sweep s.holders.live).get? s.holders.live ⟨4, 15⟩).1 = some 24 ∧
      (s.table.sweep s.holders.live).entryAt 1 = some (.of ⟨4, 15⟩ 24) ∧
      (∀ e ∈ (s.table.sweep s.holders.live).entries, e.stale s.holders.live = false) ∧
      ∃ gone, (s.table.sweep s.holders.live).reclaimed = s.table.reclaimed ++ gone ∧ gone.Perm [22, 20] := by
  have hs := (reachable_first 15 20).run acrossEnd rfl
  obtain ⟨s, hs, h15, h1, hlive, hcount, hget, hat, hstale⟩ : ∃ s : Scene Nat, s.Reachable ∧
      s.table.staleAt s.holders.live 15 = true ∧ s.table.staleAt s.holders.live 1 = true ∧
      s.holders.live ⟨4, 15⟩ = true ∧ s.table.liveCount s.holders.live = 3 ∧
      (s.table.get? s.holders.live ⟨4, 15⟩).1 = some 24 ∧
      (s.table.sweep s.holders.live).entryAt 1 = some (.of ⟨4, 15⟩ 24) ∧
      (s.table.entries.filter (·.stale s.holders.live)).map Entry.value = [22, 20] :=
    ⟨_, hs, rfl, rfl, rfl, rfl, rfl, by decide +kernel, by decide⟩
  obtain ⟨-, -, hclean, hlen, hvalue, -, -, gone, hgone, hperm⟩ := hs.sweep_complete s.holders.live
  have hfound := (hvalue ⟨4, 15⟩ hlive).2.trans hget
  exact ⟨s, hs, h15, h1, hlen.trans hcount, hfound, hat, hclean, gone, hgone, hstale ▸ hperm⟩

end Scene

end PerThread
