import PerThread.Proofs.History.Recall
import PerThread.Proofs.Table.Homeward

/-!
# Lookups and where they lead

As long as a table keeps its number of slots, every entry only ever comes nearer to its home, whatever the operation.
So an identity that survives an operation is found no farther away than before.

A lookup and a store do more for their own identity: they leave its way clear of stale entries. A second lookup has
nothing to drop then, and leaves the table as it is.
-/

namespace PerThread

variable {ν : Type} {live : Liveness} {t : Table ν} {op : Op ν} {key : Identity}

/-- No slot is stale from the home of `key` up to its own or, if it has none, up to the first free slot. -/
def Table.ClearWay (live : Liveness) (t : Table ν) (key : Identity) : Prop :=
  ∃ j < t.capacity,
    ((∃ e, t.entryAt j = some e ∧ e.key = key) ∨
      (∀ e ∈ t.entries, e.key ≠ key) ∧
        Cyclic.First t.capacity (fun x => (t.entryAt x).isNone) (t.slots.home key.hash) j) ∧
    ∀ x < t.capacity, Cyclic.dist t.capacity (t.slots.home key.hash) x ≤
      Cyclic.dist t.capacity (t.slots.home key.hash) j → t.staleAt live x = false

theorem Table.Found.clearWay {j : Nat} {found : Option Nat} (h : Table.Found live t key j found) (ht : t.WellFormed) :
    t.ClearWay live key := by
  refine ⟨j, h.lt, ?_, fun x hx hd => h.staleAt hx hd⟩
  rcases h.here with ⟨-, hnone⟩ | ⟨-, e, he, hb⟩
  · refine Or.inr ⟨h.passed.absent ht h.lt hnone, h.lt, by simp [hnone], fun x hx hd => ?_⟩
    obtain ⟨g, hg, -⟩ := h.passed x hx hd
    simp [hg]
  · exact Or.inl ⟨e, he, (Entry.belongs_iff.1 hb).1⟩

/-- An operation that leaves the number of slots as it is takes no live entry farther from its home. -/
theorem Op.nearer (h : t.WellFormed) (hop : ∀ key ∈ op.subject?, live key = true)
    (hcap : (op.table live t).capacity = t.capacity) (hlive : live key = true) : t.Nearer (op.table live t) key := by
  have hself := h.toSound.nearer_refl key
  cases op with
  | make hash => exact hself
  | forget k => exact hself
  | take => exact hself
  | sweep =>
    obtain ⟨out, hc, -⟩ := h.toSound.sweep live
    exact hself.shed rfl h.hash_eq hc.toShed
  | get k =>
    obtain ⟨-, -, out, hc, -⟩ := h.get? (hop k rfl)
    exact hself.shed rfl h.hash_eq hc.toShed
  | remove k =>
    rcases h.erase (hop k rfl) with ⟨-, heq⟩ | ⟨i, e, he, -, heq⟩
    · rw [Op.table, heq]
      exact hself
    · rw [Op.table, heq]
      exact hself.shed rfl h.hash_eq (h.expunge live he).shed
  | set k value =>
    obtain ⟨i, w, out, v, hw, hc, hsame | hgrown⟩ := h.insert_wrote (hop k rfl) value
    · rw [Op.table, hsame]
      exact (hw.nearer hlive).shed hw.capacity_eq (hw.hash_eq h) hc.toShed
    · have hroom := h.room
      have hdouble : (t.insert live k value).1.capacity = 2 * t.capacity := by
        rw [hgrown, Table.capacity_grow, hc.capacity_eq, hw.capacity_eq]
      have hsame : (t.insert live k value).1.capacity = t.capacity := hcap
      omega

/-- Only a store can change the number of slots. -/
theorem Op.capacity_table (live : Liveness) (t : Table ν) (hop : ∀ k value, op ≠ .set k value) :
    (op.table live t).capacity = t.capacity := by
  cases op with
  | set k value => exact absurd rfl (hop k value)
  | get k => exact Table.capacity_get? t live k
  | remove k => exact Table.capacity_erase t live k
  | sweep => exact Table.capacity_sweep t live
  | _ => rfl

namespace Scene

variable {s s' : Scene ν}

/-- After a lookup of `key` and after a store for it nothing on its way is stale. So a lookup that follows at once has
the same answer, or the value stored, and leaves the whole table as it is. -/
theorem Reachable.clear_way (hs : s.Reachable) (key : Identity) :
    (∀ s', s.step? (.get key) = some s' →
      s'.table.ClearWay s'.holders.live key ∧
      s'.table.get? s'.holders.live key = (s.look key, s'.table)) ∧
    ∀ value s', s.step? (.set key value) = some s' →
      s'.table.ClearWay s'.holders.live key ∧
      s'.table.get? s'.holders.live key = (some value, s'.table) := by
  have hc := hs.coherent
  have hlook {op : Op ν} {s'} (hstep : s.step? op = some s') (hlive : s.holders.live key = true) :
      s'.table.valueOf? key = (op.write? key).getD (s.look key) :=
    (hc.valueOf?_step hstep (Or.inl hlive)).trans (by rw [hc.look_eq hlive])
  refine ⟨fun s' hstep => ?_, fun value s' hstep => ?_⟩
  · have hvalue := hlook hstep
    have hc' := hc.step hstep
    obtain ⟨hsubject, rfl⟩ := step?_eq_some_iff.1 hstep
    have hlive := hsubject key rfl
    obtain ⟨j, found, -, -, hf, -⟩ := hc.wellFormed.get? hlive
    refine ⟨hf.clearWay hc'.wellFormed, ?_⟩
    exact (hc'.wellFormed.get?_of_found hlive hf).trans (by rw [hvalue hlive]; rfl)
  · have hvalue := hlook hstep
    have hc' := hc.step hstep
    obtain ⟨hsubject, rfl⟩ := step?_eq_some_iff.1 hstep
    have hlive := hsubject key rfl
    obtain ⟨j, hf⟩ := hc.wellFormed.insert_found hlive value
    refine ⟨Table.Found.clearWay hf hc'.wellFormed, ?_⟩
    exact (hc'.wellFormed.get?_of_found hlive hf).trans (by rw [hvalue hlive]; simp [Op.write?])

/-- Five identities come to stand in slots 15 and 0 to 3, as they all belong into slot 15. Then the first and the third
are let go of. -/
def acrossEnd : List (Op Nat) :=
  [.make 15, .set ⟨1, 15⟩ 21, .make 15, .set ⟨2, 15⟩ 22, .make 15, .set ⟨3, 15⟩ 23, .make 15, .set ⟨4, 15⟩ 24,
    .forget ⟨0, 15⟩, .forget ⟨2, 15⟩]

/-- A value is stored for the last of the five identities. -/
theorem clear_way_across_end :
    ∃ s s' : Scene Nat, s.Reachable ∧ s.step? (.set ⟨4, 15⟩ 34) = some s' ∧
      s.table.staleAt s.holders.live 15 = true ∧ s.table.staleAt s.holders.live 1 = true ∧
      s'.table.len = 3 ∧ s'.table.ClearWay s'.holders.live ⟨4, 15⟩ ∧
      s'.table.get? s'.holders.live ⟨4, 15⟩ = (some 34, s'.table) := by
  have hs := (reachable_first 15 20).run acrossEnd rfl
  obtain ⟨hway, hagain⟩ := (hs.clear_way ⟨4, 15⟩).2 34 _ rfl
  exact ⟨_, _, hs, rfl, rfl, rfl, rfl, hway, hagain⟩

/-- An operation other than a store never changes the number of slots. One that does not change it brings no live entry
farther from its home, and so a later lookup ends no farther from home than the entry stood before. -/
theorem Reachable.homeward (hs : s.Reachable) (hstep : s.step? op = some s') :
    ((∀ k value, op ≠ .set k value) → s'.table.capacity = s.table.capacity) ∧
    (s'.table.capacity = s.table.capacity → ∀ key i j e f, s.holders.live key = true →
      s.table.entryAt i = some e → e.key = key → s'.table.entryAt j = some f → f.key = key →
      Cyclic.dist s.table.capacity (s.table.slots.home key.hash) j ≤
        Cyclic.dist s.table.capacity (s.table.slots.home key.hash) i ∧
      ∀ live : Liveness, live key = true → ∃ x v,
        Table.search live key (s'.table.searchLimit live) (s.table.slots.home key.hash) s'.table = some (some x, v) ∧
        v.entryAt x = some f ∧
        Cyclic.dist s.table.capacity (s.table.slots.home key.hash) x ≤
          Cyclic.dist s.table.capacity (s.table.slots.home key.hash) i) := by
  have hc := hs.coherent
  have hc' := hc.step hstep
  obtain ⟨hsubject, rfl⟩ := step?_eq_some_iff.1 hstep
  refine ⟨Op.capacity_table _ _, fun hcap key i j e f hlive hi hkey hj hkey' => ?_⟩
  have hnear := Op.nearer hc.wellFormed hsubject hcap hlive i e j f hi hkey hj hkey'
  refine ⟨hnear, fun live hlive' => ?_⟩
  obtain ⟨x, v, hsearch, hx, hle⟩ := hc'.wellFormed.search_of_entryAt hlive' hj hkey'
  rw [Table.home_congr hcap] at hsearch
  rw [hcap, Table.home_congr hcap] at hle
  exact ⟨x, v, hsearch, hx, Nat.le_trans hle hnear⟩

/-- The same store brings the fourth identity one slot nearer to its home. -/
theorem homeward_across_end :
    ∃ s s' : Scene Nat, s.Reachable ∧ s.step? (.set ⟨4, 15⟩ 34) = some s' ∧
      s.table.capacity = 16 ∧ s'.table.capacity = 16 ∧
      s.table.entryAt 2 = some (.of ⟨3, 15⟩ 23) ∧ s'.table.entryAt 1 = some (.of ⟨3, 15⟩ 23) ∧
      Cyclic.dist s.table.capacity (s.table.slots.home 15) 1 ≤
        Cyclic.dist s.table.capacity (s.table.slots.home 15) 2 := by
  have hs := (reachable_first 15 20).run acrossEnd rfl
  obtain ⟨-, hnearer⟩ := @Reachable.homeward _ (.set ⟨4, 15⟩ 34) _ _ hs rfl
  obtain ⟨hle, -⟩ := hnearer (@Eq.trans _ _ 16 _ rfl rfl) ⟨3, 15⟩ 2 1 (.of ⟨3, 15⟩ 23) (.of ⟨3, 15⟩ 23)
    rfl rfl rfl rfl rfl
  exact ⟨_, _, hs, rfl, rfl, rfl, rfl, rfl, hle⟩

end Scene

end PerThread
