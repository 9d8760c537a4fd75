import PerThread.Proofs.History.Effect

/-!
# What a table remembers

For its users a table is a map: the last operation that wrote an identity decides its value. The
reference is `lastWrite`, which reads the operations alone. It agrees with the table for every identity
that has not been let go of: a held one by what each operation does (`Op.Effect.valueOf?`), one that is
yet to be made because no table knows it and no operation can be called with it. That covers an identity
from before it was made up to the moment at hand, so a fresh one never inherits the value of an older one
with the same hash code.
-/

namespace PerThread

variable {ν : Type} {live : Liveness} {t u : Table ν} {op : Op ν} {key : Identity}

/-! ## The reference -/

/-- The value that `key` has after `ops`, if it had `before`. -/
def lastWrite (key : Identity) (ops : List (Op ν)) (before : Option ν) : Option ν :=
  ops.foldl (fun value op => (op.write? key).getD value) before

theorem Op.write?_eq_some_some {v : ν} : op.write? key = some (some v) ↔ op = .set key v := by
  cases op <;> simp [write?]

/-- `key` got `v`, and no operation after that has written it. -/
def LastSet (key : Identity) (v : ν) (ops : List (Op ν)) : Prop :=
  ∃ earlier later, ops = earlier ++ .set key v :: later ∧
    ∀ op ∈ later, (∀ w, op ≠ .set key w) ∧ op ≠ .remove key

theorem lastSet_cons {v : ν} {ops : List (Op ν)} :
    LastSet key v (op :: ops) ↔
      op = .set key v ∧ (∀ x ∈ ops, x.write? key = none) ∨ LastSet key v ops := by
  simp only [LastSet, ← Op.write?_eq_none]
  constructor
  · rintro ⟨earlier, later, heq, hlater⟩
    cases earlier with
    | nil =>
      obtain ⟨rfl, rfl⟩ := List.cons.inj heq
      exact Or.inl ⟨rfl, hlater⟩
    | cons x earlier => exact Or.inr ⟨earlier, later, (List.cons.inj heq).2, hlater⟩
  · rintro (⟨rfl, hops⟩ | ⟨earlier, later, rfl, hlater⟩)
    · exact ⟨[], ops, rfl, hops⟩
    · exact ⟨op :: earlier, later, rfl, hlater⟩

/-- The reference says what it should. -/
theorem lastWrite_eq_some_iff {ops : List (Op ν)} {before : Option ν} {v : ν} :
    lastWrite key ops before = some v ↔
      LastSet key v ops ∨ before = some v ∧ ∀ x ∈ ops, x.write? key = none := by
  induction ops generalizing before with
  | nil => simp [lastWrite, LastSet]
  | cons op rest ih =>
    have hstep : lastWrite key (op :: rest) before = lastWrite key rest ((op.write? key).getD before) := rfl
    rw [hstep, ih, lastSet_cons, List.forall_mem_cons]
    cases hop : op.write? key with
    | none =>
      have hne : op ≠ .set key v := fun heq => by simp [Op.write?_eq_some_some.2 heq] at hop
      simp [hne]
    | some w =>
      have hiff : w = some v ↔ op = .set key v := by rw [← Op.write?_eq_some_some, hop, Option.some_inj]
      simp [hiff, or_comm]

/-! ## The table agrees -/

/-- What one operation makes of the value of an identity that is held. -/
theorem Op.Effect.valueOf? (h : op.Effect live t u) (ht : (t.entries.map Entry.key).Nodup)
    (hlive : live key = true) : u.valueOf? key = (op.write? key).getD (t.valueOf? key) := by
  have hu := h.wellFormed.nodup
  cases hop : op.write? key with
  | none =>
    refine Table.valueOf?_congr ht hu fun e hkey => ?_
    exact h.mem_iff (by simp [Entry.stale_eq hkey, hlive]) (by rw [hkey, ← Op.write?_eq_none_iff, hop])
  | some w =>
    have hwrites : op.writes key = true := by rw [Op.writes, hop]; rfl
    rw [Option.getD_some]
    cases w with
    | some v =>
      obtain rfl := Op.write?_eq_some_some.1 hop
      exact Table.valueOf?_eq_some hu ((h.written (.of key v) hwrites).2 (List.mem_singleton_self _)) rfl
    | none =>
      refine Table.valueOf?_eq_none_iff.2 fun e he hkey => ?_
      have harr := (h.written e (hkey ▸ hwrites)).1 he
      cases op with
      | set k v => simp [Op.write?] at hop
      | _ => cases harr

namespace Scene

variable {s s' : Scene ν}

theorem Coherent.valueOf?_unmade (h : s.Coherent) (hkey : s.holders.made ≤ key.serial) :
    s.table.valueOf? key = none := by
  refine Table.valueOf?_eq_none_iff.2 fun e he heq => ?_
  have := h.known e he
  rw [heq] at this
  omega

theorem Coherent.valueOf?_step (h : s.Coherent) (hstep : s.step? op = some s')
    (hahead : s.holders.Ahead key) :
    s'.table.valueOf? key = (op.write? key).getD (s.table.valueOf? key) := by
  rcases hahead with hlive | hmade
  · exact (h.effect hstep).valueOf? h.wellFormed.nodup hlive
  · have hop := (step?_eq_some_iff.1 hstep).1
    have hwrite : op.write? key = none := by
      rw [Op.write?_eq_none_iff, Bool.eq_false_iff]
      intro hwrites
      have := s.holders.made_of_live key (hop key (Op.writes_subject hwrites))
      omega
    rw [hwrite, Option.getD_none, h.valueOf?_unmade hmade]
    refine Table.valueOf?_eq_none_iff.2 fun e he heq => ?_
    have := h.known_after hstep e he
    rw [heq] at this
    omega

theorem ahead_of_run {ops : List (Op ν)} (hrun : s.run? ops = some s') (h : s'.holders.Ahead key) :
    s.holders.Ahead key := by
  induction ops generalizing s with
  | nil =>
    cases hrun
    exact h
  | cons op rest ih =>
    obtain ⟨m, hstep, hrest⟩ := run?_cons.1 hrun
    obtain ⟨-, rfl⟩ := step?_eq_some_iff.1 hstep
    exact ahead_of_after (ih hrest)

theorem Coherent.valueOf?_run {ops : List (Op ν)} (h : s.Coherent) (hrun : s.run? ops = some s')
    (hahead : s'.holders.Ahead key) : s'.table.valueOf? key = lastWrite key ops (s.table.valueOf? key) := by
  induction ops generalizing s with
  | nil =>
    cases hrun
    rfl
  | cons op rest ih =>
    obtain ⟨m, hstep, hrest⟩ := run?_cons.1 hrun
    have hm := ahead_of_run hrest hahead
    obtain ⟨-, rfl⟩ := step?_eq_some_iff.1 hstep
    rw [ih (h.step hstep) hrest, h.valueOf?_step hstep (ahead_of_after hm)]
    rfl

theorem Coherent.look_eq (h : s.Coherent) (hlive : s.holders.live key = true) :
    s.look key = s.table.valueOf? key := by
  obtain ⟨-, -, -, -, -, hvalue⟩ := h.wellFormed.get? hlive
  exact hvalue

theorem valueOf?_first (h : Holders) (k₀ : Identity) (v₀ : ν) (key : Identity) :
    (first h k₀ v₀).table.valueOf? key = lastWrite key [.set k₀ v₀] none := by
  show (Table.singleton k₀ v₀).valueOf? key = _
  rw [Table.valueOf?, (Table.wellFormed_singleton k₀ v₀).2, List.find?_singleton]
  by_cases hkey : k₀ = key <;> simp [hkey, lastWrite, Op.write?, Entry.of]

/-- A lookup of a held identity finds the value of the last set that no removal has followed. A fresh
identity finds nothing, whatever its hash code. What an operation does not write, it does not change. -/
theorem look_of_run {h : Holders} {k₀ : Identity} (hlive₀ : h.live k₀ = true) (v₀ : ν)
    (ops : List (Op ν)) (hrun : (first h k₀ v₀).run? ops = some s) :
    (∀ key, s.holders.live key = true → ∀ v, s.look key = some v ↔ LastSet key v (.set k₀ v₀ :: ops)) ∧
    (∀ hash, (s.after (.make hash)).look (s.holders.fresh hash) = none) ∧
    ∀ op s' key, s.step? op = some s' → s.holders.live key = true → s'.holders.live key = true →
      (∀ w, op ≠ .set key w) → op ≠ .remove key → s'.look key = s.look key := by
  have hfirst := coherent_first h hlive₀ v₀
  have hs := ((Reachable.first h hlive₀ v₀).run ops hrun).coherent
  refine ⟨fun key hlive v => ?_, fun hash => ?_, fun op s' key hstep hlive hlive' hset hremove => ?_⟩
  · rw [hs.look_eq hlive, hfirst.valueOf?_run hrun (Or.inl hlive), valueOf?_first]
    show lastWrite key (.set k₀ v₀ :: ops) none = some v ↔ _
    simp only [lastWrite_eq_some_iff, reduceCtorEq, false_and, or_false]
  · have hmake : s.step? (.make hash) = some (s.after (.make hash)) := rfl
    rw [(hs.step hmake).look_eq (s.holders.live_fresh hash)]
    exact hs.valueOf?_unmade (Nat.le_refl _)
  · rw [(hs.step hstep).look_eq hlive', hs.look_eq hlive, hs.valueOf?_step hstep (Or.inl hlive),
      Op.write?_eq_none.2 ⟨hset, hremove⟩, Option.getD_none]

/-- The second identity has the hash code of the first, which has been let go of. -/
theorem look_of_reused_hash :
    ∃ s : Scene Nat, (first (.make .nobody 7) ⟨0, 7⟩ 20).run?
        [.forget ⟨0, 7⟩, .make 7, .get ⟨1, 7⟩, .set ⟨1, 7⟩ 21, .sweep] = some s ∧ s.look ⟨1, 7⟩ = some 21 := by
  obtain ⟨hlook, -, -⟩ := look_of_run (Holders.nobody.live_fresh 7) 20
    [.forget ⟨0, 7⟩, .make 7, .get ⟨1, 7⟩, .set ⟨1, 7⟩ 21, .sweep] rfl
  exact ⟨_, rfl, (hlook ⟨1, 7⟩ rfl 21).2 ⟨[_, _, _, _], [.sweep], rfl, by simp⟩⟩

end Scene

end PerThread
