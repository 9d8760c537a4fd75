import PerThread.Proofs.History.Accounting
import PerThread.Proofs.History.Recall
import PerThread.Proofs.Table.Clearing

/-!
# A store that comes past a stale entry

A store whose search comes to a stale entry first uses the slot of that entry. It takes the occasion to clean the
run that the slot is in. The length of the table falls by the number of stale entries dropped, and there is one at
least, since the entry found on the way does not stay.
-/

namespace PerThread

variable {ν : Type} {live : Liveness} {t u : Table ν} {op : Op ν} {key : Identity}

/-- How an operation changes the length: what it brings comes in, what it dropped or displaced went out. -/
theorem Op.Effect.len_balance (h : op.Effect live t u) (ht : t.WellFormed)
    (hop : ∀ key ∈ op.subject?, live key = true) :
    u.len + (t.dropped live u).length + (op.displaced t).length = t.len + op.passed?.toList.length := by
  have hcons := h.conserved.length_eq
  obtain ⟨gone, hgone, hperm⟩ := h.given_up ht.nodup hop
  have hsum := congrArg List.length hgone
  have hlength := hperm.length_eq
  simp only [List.length_append, List.length_map] at hcons hsum hlength
  simp only [Table.values, List.length_map] at hcons
  rw [ht.len_eq, h.wellFormed.len_eq]
  omega

/-- A stale entry has been dropped if there is none of its identity any more. -/
theorem Table.mem_dropped {e : Entry ν} (he : e ∈ t.entries) (hs : e.stale live = true)
    (hgone : ∀ f ∈ u.entries, f.key ≠ e.key) : e ∈ t.dropped live u := by
  unfold Table.dropped
  rw [List.mem_filter, Table.valueOf?_eq_none_iff.2 hgone, hs]
  exact ⟨he, rfl⟩

namespace Scene

variable {s s' : Scene ν}

/-- A store that meets a stale entry before an entry of its identity or a free slot. There is one entry for the
identity afterwards, with the value stored; nothing in the run of the stale entry is stale, and no value of another
identity has changed. The capacity stays. The length goes up if the identity had no entry, and down for every
stale entry dropped. -/
theorem Reachable.set_past_stale (hs : s.Reachable) {value : ν} (hstep : s.step? (.set key value) = some s')
    {i : Nat} (hway : s.table.Passed s.holders.live key i) (hstale : s.table.staleAt s.holders.live i = true) :
    s'.table.entries.filter (·.key == key) = [.of key value] ∧ s'.look key = some value ∧
    (∀ x, s.table.SameRun i x → s'.table.staleAt s.holders.live x = false) ∧
    (∀ other, s.holders.live other = true → other ≠ key → s'.look other = s.look other) ∧
    s'.table.capacity = s.table.capacity ∧
    s'.table.len + (s.table.dropped s.holders.live s'.table).length =
      s.table.len + (if (s.look key).isSome then 0 else 1) ∧
    0 < (s.table.dropped s.holders.live s'.table).length := by
  have hc := hs.coherent
  have heff := hc.effect hstep
  have hvalueOf (other : Identity) (hother : s.holders.live other = true) :=
    hc.valueOf?_step hstep (Or.inl hother)
  have hc' := hc.step hstep
  obtain ⟨hsubject, rfl⟩ := step?_eq_some_iff.1 hstep
  have hlive : s.holders.live key = true := hsubject key rfl
  obtain ⟨e, he, hes⟩ := Table.staleAt_iff.1 hstale
  have htable : (s.after (.set key value)).table = s.table.takeOver s.holders.live key value i :=
    congrArg Prod.fst (hc.wellFormed.insert_of_stale he hes hway value)
  obtain ⟨hcap, hclear, hgone⟩ := hc.wellFormed.takeOver_clears hlive he hes hway value
  rw [← htable] at hcap hclear hgone
  have hnew : Entry.of key value ∈ (s.after (.set key value)).table.entries :=
    (heff.written (.of key value) (Op.writes_set.2 rfl)).2 (List.mem_singleton_self _)
  refine ⟨Table.filter_key heff.wellFormed.nodup hnew, ?_, hclear, ?_, hcap, ?_, ?_⟩
  · exact (hc'.look_eq hlive).trans (Table.valueOf?_eq_some heff.wellFormed.nodup hnew rfl)
  · intro other hother hne
    have hwrite : (Op.set key value).write? other = none := by simp [Op.write?, Ne.symm hne]
    rw [hc'.look_eq hother, hc.look_eq hother, hvalueOf other hother, hwrite]
    rfl
  · have hlen := heff.len_balance hc.wellFormed hsubject
    have hdisplaced : (Op.set key value).displaced s.table = (s.look key).toList := by
      rw [hc.look_eq hlive]
      rfl
    rw [hdisplaced] at hlen
    cases hlook : s.look key with
    | none => simpa [hlook, Op.passed?] using hlen
    | some old => simpa [hlook, Op.passed?] using hlen
  · exact List.length_pos_of_mem (Table.mem_dropped (Table.mem_entries_of_entryAt he) hes hgone)

/-- Five identities have one hash code. The second and the last are let go of, and the third is stored anew. -/
theorem set_between_stale :
    ∃ s s' : Scene Nat, s.Reachable ∧ s.step? (.set ⟨2, 7⟩ 32) = some s' ∧ s.table.len = 5 ∧
      s.table.SameRun 8 11 ∧ s.table.staleAt s.holders.live 11 = true ∧
      s'.look ⟨2, 7⟩ = some 32 ∧ s'.look ⟨3, 7⟩ = some 23 ∧ s'.table.len = 3 ∧
      s'.table.staleAt s.holders.live 11 = false := by
  have hs := (reachable_first 7 20).run [.make 7, .set ⟨1, 7⟩ 21, .make 7, .set ⟨2, 7⟩ 22, .make 7,
    .set ⟨3, 7⟩ 23, .make 7, .set ⟨4, 7⟩ 24, .forget ⟨1, 7⟩, .forget ⟨4, 7⟩] rfl
  obtain ⟨-, hlook, hclear, hothers, -, hlen, -⟩ := @Reachable.set_past_stale _ ⟨2, 7⟩ _ _ hs 32 rfl _
    (Table.Passed.next (i := 7) (Table.passed_home _ _ _) (by decide) rfl rfl (by decide)) rfl
  refine ⟨_, _, hs, rfl, rfl, ⟨by decide, Or.inl ?_⟩, rfl, hlook, (hothers ⟨3, 7⟩ rfl (by decide)).trans rfl,
    Nat.add_right_cancel hlen, hclear 11 ⟨by decide, Or.inl ?_⟩⟩
  all_goals
    unfold Table.Linked Slots.Linked
    decide

end Scene

end PerThread
