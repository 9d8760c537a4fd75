import PerThread.Proofs.History.Effect

/-!
# The size of a table over its history

The number of slots is a power of two and only ever doubles. A table doubles after a sweep, while it holds
at least half as many entries as it has slots, all of them live. So garbage has no part in its size: there
were once that many live entries, in this table or in one that it was forked or copied from.
-/

namespace PerThread

variable {ν : Type} {t : Table ν}

namespace Table

/-- The length is the number of occupied slots. -/
theorem length_entries (t : Table ν) :
    t.entries.length = (List.range t.capacity).countP fun i => (t.entryAt i).isSome := by
  have hslots : t.slots.toList = (List.range t.capacity).map t.entryAt := by
    refine List.ext_getElem (by simp [capacity]) fun i h₁ h₂ => ?_
    have hi : i < t.slots.size := by simpa using h₁
    simp [entryAt, Slots.entryAt, hi]
  rw [entries, Slots.entries, List.length_filterMap_eq_countP, hslots, List.countP_map]
  rfl

/-- The home slot is what the low bits of the hash code say. -/
theorem home_eq_land (h : t.capacity.isPowerOfTwo) (hash : UInt32) :
    t.slots.home hash = hash.toNat &&& (t.capacity - 1) := by
  obtain ⟨k, hk⟩ := h
  rw [hk, Nat.and_two_pow_sub_one_eq_mod, ← hk]
  rfl

/-- Without stale entries, all that is there is live. -/
theorem liveCount_eq_length {live : Liveness} (h : ∀ e ∈ t.entries, e.stale live = false) :
    t.liveCount live = t.entries.length :=
  List.countP_eq_length.2 fun e he => by simp [h e he]

end Table

namespace Scene

variable {s s' : Scene ν} {op : Op ν}

/-! ## The representation -/

theorem Coherent.capacity_le (h : s.Coherent) (hstep : s.step? op = some s') :
    s.table.capacity ≤ s'.table.capacity := by
  rcases (h.effect hstep).grown with heq | ⟨heq, -⟩ <;> omega

/-- Whatever happened before: the geometry is sound, some slot is free, every entry is found from its home
on, and no identity has two. -/
theorem Reachable.representation (hs : s.Reachable) :
    (s.table.capacity.isPowerOfTwo ∧ 16 ≤ s.table.capacity ∧
      (∀ op s', s.step? op = some s' → s.table.capacity ≤ s'.table.capacity) ∧
      (∀ childValue, (s.fork childValue).table.capacity = s.table.capacity) ∧
      s.copy.table.capacity = s.table.capacity) ∧
    s.table.threshold = 2 * s.table.capacity / 3 ∧
    s.table.len = ((List.range s.table.capacity).countP fun i => (s.table.entryAt i).isSome) ∧
    (s.table.len < s.table.threshold ∧ ∃ i < s.table.capacity, s.table.entryAt i = none) ∧
    (∀ i e, s.table.entryAt i = some e → ∀ x < s.table.capacity,
      Cyclic.dist s.table.capacity (e.hash.toNat &&& (s.table.capacity - 1)) x ≤
        Cyclic.dist s.table.capacity (e.hash.toNat &&& (s.table.capacity - 1)) i →
      (s.table.entryAt x).isSome) ∧
    (∀ i j e f, s.table.entryAt i = some e → s.table.entryAt j = some f → e.key = f.key → i = j) ∧
    ∀ i e, s.table.entryAt i = some e → e.hash = e.key.hash := by
  have hc := hs.coherent
  have h := hc.wellFormed
  refine ⟨⟨h.power, h.initial_le, ?_, ?_, rfl⟩, ?_, ?_, ⟨h.len_lt, h.exists_free⟩, ?_, ?_, ?_⟩
  · exact fun op s' hstep => hc.capacity_le hstep
  · exact fun childValue => (h.fork s.holders.live childValue).2.1
  · rw [h.threshold_eq, Table.thresholdFor, Nat.mul_comm]
  · rw [h.len_eq, Table.length_entries]
  · intro i e he x hx hd
    rw [← Table.home_eq_land h.power] at hd
    exact h.led i e he x hx hd
  · exact fun i j e f hi hj hkey => h.index_unique hi hj hkey
  · exact fun i e he => h.hash_eq e (Table.mem_entries_of_entryAt he)

/-- Two identities of one hash code, the older one let go of before a copy is made. -/
theorem representation_of_copy :
    ∃ s : Scene Nat, s.Reachable ∧ s.table.capacity = 16 ∧ s.table.len = 2 ∧ s.table.threshold = 10 ∧
      ∀ i j e f, s.table.entryAt i = some e → s.table.entryAt j = some f → e.key = f.key → i = j := by
  have hrun := (reachable_first 7 20).run [.make 7, .set ⟨1, 7⟩ 21, .forget ⟨0, 7⟩] rfl
  obtain ⟨-, -, -, -, -, hunique, -⟩ := hrun.copy.representation
  exact ⟨_, hrun.copy, rfl, rfl, rfl, hunique⟩

/-! ## Garbage -/

/-- A history begins with a live entry. -/
theorem Reachable.peak_pos (hs : s.Reachable) : 0 < s.peak := by
  induction hs with
  | @first h key hlive value =>
    have hone : (Table.singleton key value).liveCount h.live = 1 := by
      rw [Table.liveCount_eq_length, (Table.wellFormed_singleton key value).2]
      · rfl
      · simp [(Table.wellFormed_singleton key value).2, Entry.stale, Entry.of, hlive]
    exact Nat.lt_of_lt_of_eq Nat.zero_lt_one hone.symm
  | step op _ hstep ih =>
    obtain ⟨-, rfl⟩ := step?_eq_some_iff.1 hstep
    exact Nat.lt_of_lt_of_le ih (Nat.le_max_left _ _)
  | fork childValue _ ih => exact Nat.lt_of_lt_of_le ih (Nat.le_max_left _ _)
  | copy _ ih => exact ih

/-- A step changes the table or who is held, not both. -/
theorem holders_or_table (s : Scene ν) (op : Op ν) :
    (s.after op).holders = s.holders ∨ (s.after op).table = s.table := by
  cases op with
  | make hash => exact Or.inr rfl
  | forget key => exact Or.inr rfl
  | _ => exact Or.inl rfl

/-- A table that has just doubled has at most four slots for each live entry. -/
theorem Coherent.doubled (h : s.Coherent) (hstep : s.step? op = some s') :
    s'.table.capacity = s.table.capacity ∨ s'.table.capacity ≤ 4 * s'.peak := by
  have heff := h.effect hstep
  obtain ⟨-, rfl⟩ := step?_eq_some_iff.1 hstep
  rcases s.holders_or_table op with hholders | htable
  · rcases heff.grown with heq | ⟨heq, hhalf, hlive⟩
    · exact Or.inl heq
    · have hlen := heff.wellFormed.len_eq
      rw [← Table.liveCount_eq_length hlive] at hlen
      have hpeak : (s.after op).table.liveCount (s.after op).holders.live ≤ (s.after op).peak :=
        Nat.le_max_right _ _
      rw [hholders] at hpeak
      right
      omega
  · exact Or.inl (by rw [htable])

theorem Reachable.capacity_le (hs : s.Reachable) : s.table.capacity ≤ max 16 (4 * s.peak) := by
  induction hs with
  | @first h key hlive value =>
    have hcap := Table.capacity_singleton key value
    exact Nat.le_trans (Nat.le_of_eq hcap) (Nat.le_max_left _ _)
  | @step s s' op hs hstep ih =>
    have hdoubled := hs.coherent.doubled hstep
    obtain ⟨-, rfl⟩ := step?_eq_some_iff.1 hstep
    have hpeak : s.peak ≤ (s.after op).peak := Nat.le_max_left _ _
    omega
  | @fork s childValue hs ih =>
    have hcap := (hs.coherent.wellFormed.fork s.holders.live childValue).2.1
    have hpeak : s.peak ≤ (s.fork childValue).peak := Nat.le_max_left _ _
    show (s.table.fork s.holders.live childValue).capacity ≤ _
    omega
  | copy _ ih => exact ih

/-- Garbage does not make a table grow: its size, and with it the number of values that it still holds for
identities let go of, depends on the largest number of live entries alone. -/
theorem Reachable.size_bound (hs : s.Reachable) :
    s.table.capacity ≤ max 16 (4 * s.peak) ∧ s.table.staleCount s.holders.live ≤ 9 * s.peak := by
  refine ⟨hs.capacity_le, ?_⟩
  have hwf := hs.coherent.wellFormed
  have hcap := hs.capacity_le
  have hpos := hs.peak_pos
  have hlt := hwf.len_lt
  have hstale : s.table.staleCount s.holders.live ≤ s.table.entries.length := List.countP_le_length
  rw [hwf.threshold_eq, Table.thresholdFor] at hlt
  rw [← hwf.len_eq] at hstale
  omega

/-- One entry is live at a time, and every identity before the last has been let go of. -/
theorem size_bound_of_churn :
    ∃ s : Scene Nat, s.Reachable ∧ s.peak = 1 ∧ s.table.staleCount s.holders.live = 2 ∧
      s.table.capacity ≤ max 16 (4 * s.peak) ∧ s.table.staleCount s.holders.live ≤ 9 * s.peak := by
  have hrun := (reachable_first 7 20).run [.forget ⟨0, 7⟩, .make 12, .set ⟨1, 12⟩ 21, .forget ⟨1, 12⟩, .make 1,
    .set ⟨2, 1⟩ 22] rfl
  exact ⟨_, hrun, rfl, rfl, hrun.size_bound⟩

end Scene

end PerThread
