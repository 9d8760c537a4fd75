import PerThread.Proofs.History.Basic

/-!
# What a step does

`Op.Effect` says for every operation at once what became of a well-formed table: the table is well-formed
again; an entry that left is stale, or its identity is the one that the operation writes; of that identity
the table holds what the operation brought, and nothing else. All that holds over whole histories follows
from this and from two facts about reachable scenes: the table is well-formed, and all its identities were
made at some time.
-/

namespace PerThread

open Table (Cleaned)

variable {ν : Type} {live : Liveness} {t u : Table ν} {op : Op ν}

namespace Op

/-- The entries that the operation brings. -/
def arrivals : Op ν → List (Entry ν)
  | .set key value => [.of key value]
  | _ => []

/-- The operation says what the value of `key` is to be. -/
def writes (op : Op ν) (key : Identity) : Bool := (op.write? key).isSome

@[simp] theorem writes_set {key k : Identity} {value : ν} : (set k value).writes key = true ↔ k = key := by
  simp [writes, write?]

@[simp] theorem writes_remove {key k : Identity} : (remove k : Op ν).writes key = true ↔ k = key := by
  simp [writes, write?]

theorem write?_eq_none {key : Identity} :
    op.write? key = none ↔ (∀ w, op ≠ .set key w) ∧ op ≠ .remove key := by
  cases op <;> simp [write?]

theorem write?_eq_none_iff {key : Identity} : op.write? key = none ↔ op.writes key = false := by
  simp [writes]

/-- What is written is the value of the identity at hand. -/
theorem writes_subject {key : Identity} (h : op.writes key = true) : key ∈ op.subject? := by
  cases op with
  | set k value => exact congrArg some (writes_set.1 h)
  | remove k => exact congrArg some (writes_remove.1 h)
  | _ => cases h

theorem key_of_mem_arrivals {e : Entry ν} (he : e ∈ op.arrivals) : e.key ∈ op.subject? := by
  cases op with
  | set key value =>
    rw [List.mem_singleton.1 he]
    rfl
  | _ => cases he

/-- What became of a table. -/
structure Effect (live : Liveness) (op : Op ν) (t u : Table ν) : Prop where
  wellFormed : u.WellFormed
  turnover : ∃ out, (t.entries ++ op.arrivals).Perm (out ++ u.entries) ∧
    op.handed t ++ u.reclaimed = t.reclaimed ++ out.map Entry.value ∧
    ∀ e ∈ out, e.stale live = true ∨ op.writes e.key = true
  written : ∀ e : Entry ν, op.writes e.key = true → (e ∈ u.entries ↔ e ∈ op.arrivals)
  grown : u.capacity = t.capacity ∨
    u.capacity = 2 * t.capacity ∧ t.capacity ≤ 2 * u.len ∧ ∀ e ∈ u.entries, e.stale live = false

/-! ## The effect of each operation -/

/-- Operations that write nothing and hand out nothing, and do no more than clean. -/
theorem effect_of_cleaned {out : List (Entry ν)} (h : t.WellFormed) (hc : t.Cleaned live out u)
    (harr : op.arrivals = []) (hhand : op.handed t = []) (hwrites : ∀ key, op.writes key = false) :
    op.Effect live t u where
  wellFormed := h.of_cleaned hc
  turnover := ⟨out, by rw [harr]; exact hc.turnover.entries, by rw [hhand]; exact hc.turnover.reclaimed,
    fun e he => Or.inl (hc.stale e he)⟩
  written e he := by simp [hwrites] at he
  grown := Or.inl hc.capacity_eq

theorem effect_set (h : t.WellFormed) {key : Identity} (hlive : live key = true) (value : ν) :
    (set key value).Effect live t (t.insert live key value).1 := by
  have hs := h.insert hlive value
  obtain ⟨out, hto, hout⟩ := hs.turnover
  refine ⟨hs.wellFormed, ⟨out, hto.entries, hto.reclaimed, fun e he => ?_⟩, fun e he => ?_, hs.grown⟩
  · exact (hout e he).imp id fun hkey => writes_set.2 hkey.symm
  · have hkey := writes_set.1 he
    rw [arrivals, List.mem_singleton]
    constructor
    · exact fun hmem => List.inj_on_of_nodup_map hs.wellFormed.nodup hmem hs.mem hkey.symm
    · rintro rfl
      exact hs.mem

theorem effect_remove (h : t.WellFormed) {key : Identity} (hlive : live key = true) :
    (remove key).Effect live t (t.erase live key) := by
  rcases h.erase hlive with ⟨habsent, heq⟩ | ⟨i, e, he, hkey, heq⟩
  · rw [heq]
    refine ⟨h, ⟨[], by simp [arrivals], by simp [handed], by simp⟩, fun e he => ?_, Or.inl rfl⟩
    have hne : e ∉ t.entries := fun hmem => habsent e hmem (writes_remove.1 he).symm
    simp [hne, arrivals]
  · have hexp := h.expunge live he
    have habsent := hexp.absent h.toSound
    rw [heq]
    refine ⟨h.of_shed hexp.shed hexp.sound, ⟨_, hexp.shed.turnover.entries,
      hexp.shed.turnover.reclaimed, fun f hf => ?_⟩, fun f hf => ?_, Or.inl hexp.shed.capacity_eq⟩
    · rcases List.mem_cons.1 hf with rfl | hf
      · exact Or.inr (writes_remove.2 hkey.symm)
      · exact Or.inl (List.mem_filter.1 hf).2
    · have hne : f ∉ (t.expunge live i).2.entries := fun hmem =>
        habsent f hmem ((writes_remove.1 hf).symm.trans hkey.symm)
      simp [hne, arrivals]

theorem effect_take (h : t.WellFormed) : (take : Op ν).Effect live t t.takeReclaimed.2 where
  wellFormed := h.copy
  turnover := ⟨[], by simp [arrivals, Table.takeReclaimed, Table.entries],
    by simp [handed, Table.takeReclaimed], by simp⟩
  written e he := by cases he
  grown := Or.inl rfl

/-- Every operation, called with an identity that is held. -/
theorem effect (h : t.WellFormed) (hop : ∀ key ∈ op.subject?, live key = true) :
    op.Effect live t (op.table live t) := by
  cases op with
  | set key value => exact effect_set h (hop key rfl) value
  | remove key => exact effect_remove h (hop key rfl)
  | take => exact effect_take h
  | get key =>
    obtain ⟨-, -, out, hc, -⟩ := h.get? (hop key rfl)
    exact effect_of_cleaned h hc rfl rfl fun _ => rfl
  | sweep =>
    obtain ⟨out, hc, -⟩ := h.toSound.sweep live
    exact effect_of_cleaned h hc rfl rfl fun _ => rfl
  | make hash => exact effect_of_cleaned h (.refl live h.toSound) rfl rfl fun _ => rfl
  | forget key => exact effect_of_cleaned h (.refl live h.toSound) rfl rfl fun _ => rfl

namespace Effect

/-- What is there afterwards was there before, or has come. -/
theorem mem_of_mem (h : op.Effect live t u) {e : Entry ν} (he : e ∈ u.entries) :
    e ∈ t.entries ∨ e ∈ op.arrivals := by
  obtain ⟨out, hperm, -⟩ := h.turnover
  exact List.mem_append.1 (hperm.mem_iff.2 (List.mem_append_right out he))

/-- The entries of a live identity that is not written stay. -/
theorem mem_iff (h : op.Effect live t u) {e : Entry ν} (hs : e.stale live = false)
    (hw : op.writes e.key = false) : e ∈ u.entries ↔ e ∈ t.entries := by
  obtain ⟨out, hperm, -, hout⟩ := h.turnover
  have harr : e ∉ op.arrivals := by
    intro he
    cases op with
    | set key value =>
      rw [arrivals, List.mem_singleton] at he
      rw [Bool.eq_false_iff] at hw
      exact hw (writes_set.2 (by rw [he]; rfl))
    | _ => cases he
  refine ⟨fun he => (h.mem_of_mem he).resolve_right harr, fun he => ?_⟩
  refine (List.mem_append.1 (hperm.mem_iff.1 (List.mem_append_left _ he))).resolve_left fun hgone => ?_
  rcases hout e hgone with hs' | hw'
  · simp [hs] at hs'
  · simp [hw] at hw'

end Effect

end Op

/-! ## Reachable scenes -/

namespace Scene

variable {s s' : Scene ν}

/-- What holds at every moment of a history. -/
structure Coherent (s : Scene ν) : Prop where
  wellFormed : s.table.WellFormed
  known : ∀ e ∈ s.table.entries, e.key.serial < s.holders.made

theorem coherent_first (h : Holders) {key : Identity} (hlive : h.live key = true) (value : ν) :
    (first h key value).Coherent := by
  obtain ⟨hwf, hent⟩ := Table.wellFormed_singleton key value
  refine ⟨hwf, fun e he => ?_⟩
  have heq : e = .of key value := List.mem_singleton.1 (hent ▸ he)
  rw [heq]
  exact h.made_of_live key hlive

theorem Coherent.effect (h : s.Coherent) (hstep : s.step? op = some s') :
    op.Effect s.holders.live s.table s'.table := by
  obtain ⟨hop, rfl⟩ := step?_eq_some_iff.1 hstep
  exact Op.effect h.wellFormed hop

/-- An operation brings entries of identities that were made already. -/
theorem Coherent.known_after (h : s.Coherent) (hstep : s.step? op = some s') :
    ∀ e ∈ s'.table.entries, e.key.serial < s.holders.made := by
  obtain ⟨hop, -⟩ := step?_eq_some_iff.1 hstep
  intro e he
  rcases (h.effect hstep).mem_of_mem he with he | he
  · exact h.known e he
  · exact s.holders.made_of_live e.key (hop e.key (Op.key_of_mem_arrivals he))

theorem made_le_after (s : Scene ν) (op : Op ν) : s.holders.made ≤ (s.after op).holders.made := by
  cases op with
  | make hash => exact Nat.le_succ _
  | _ => exact Nat.le_refl _

theorem Coherent.step (h : s.Coherent) (hstep : s.step? op = some s') : s'.Coherent := by
  refine ⟨(h.effect hstep).wellFormed, fun e he => ?_⟩
  obtain ⟨-, rfl⟩ := step?_eq_some_iff.1 hstep
  exact Nat.lt_of_lt_of_le (h.known_after hstep e he) (made_le_after s op)

theorem Coherent.fork (h : s.Coherent) (childValue : Identity → ν → Option ν) :
    (s.fork childValue).Coherent := by
  obtain ⟨hwf, -, hent⟩ := h.wellFormed.fork s.holders.live childValue
  refine ⟨hwf, fun f hf => ?_⟩
  obtain ⟨e, he, -, value, -, rfl⟩ := Table.mem_heirs.1 (hent.mem_iff.1 hf)
  exact h.known e he

theorem Reachable.coherent (hs : s.Reachable) : s.Coherent := by
  induction hs with
  | first h hlive value => exact coherent_first h hlive value
  | step op _ hstep ih => exact ih.step hstep
  | fork childValue _ ih => exact ih.fork childValue
  | copy _ ih => exact ⟨ih.wellFormed.copy, ih.known⟩

end Scene

end PerThread
