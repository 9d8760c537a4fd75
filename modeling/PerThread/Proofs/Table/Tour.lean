import PerThread.Exec
import PerThread.Proofs.Table.Lookup
import PerThread.Proofs.Table.Rebuild

/-!
# The walk over a parent's table

A child's table is made by a computation that has effects of its own and may be interrupted. Seen from the
outside it is a `Tour`: the entries of the parent take their turns in slot order; an entry whose identity is
not alive when its turn comes is passed over, and for any other one a child's value is asked for, once. What the
child gets does not depend on how the child's table is laid out, so the tour alone tells its entries
(`inheritAll_ok`). An interrupted walk is a tour of the entries before the one that was interrupted.
-/

namespace PerThread

variable {ν σ : Type}

/-- The turn of one entry. -/
structure Turn (ν σ : Type) where
  entry : Entry ν
  /-- The state when the walk reaches the entry. -/
  before : σ
  /-- What the child gets. -/
  heir : Option ν
  after : σ

namespace Turn

def entry? (τ : Turn ν σ) : Option (Entry ν) := τ.heir.map fun value => { τ.entry with value }

/-- Asking is all that changes the state, and only who is alive is asked. -/
structure Fair (alive : σ → Liveness) (ask : Entry ν → σ → Option ν → σ → Prop) (τ : Turn ν σ) : Prop where
  passed : alive τ.before τ.entry.key = false → τ.heir = none ∧ τ.after = τ.before
  asked : alive τ.before τ.entry.key = true → ask τ.entry τ.before τ.heir τ.after

theorem entry?_key {τ : Turn ν σ} {f : Entry ν} (h : τ.entry? = some f) : f.key = τ.entry.key := by
  obtain ⟨value, -, rfl⟩ := Option.map_eq_some_iff.1 h
  rfl

theorem entry?_eq_some_iff {τ : Turn ν σ} {f : Entry ν} :
    τ.entry? = some f ↔ ∃ value, τ.heir = some value ∧ { τ.entry with value } = f :=
  Option.map_eq_some_iff

end Turn

/-- Turns one after another, from one state to another. -/
inductive Tour (alive : σ → Liveness) (ask : Entry ν → σ → Option ν → σ → Prop) :
    σ → List (Turn ν σ) → σ → Prop
  | nil (x : σ) : Tour alive ask x [] x
  | cons {x y : σ} {τ : Turn ν σ} {rest : List (Turn ν σ)} (here : τ.before = x) (fair : τ.Fair alive ask)
      (tail : Tour alive ask τ.after rest y) : Tour alive ask x (τ :: rest) y

section
variable {alive : σ → Liveness} {ask : Entry ν → σ → Option ν → σ → Prop} {x y z : σ} {e : Entry ν}
  {turns : List (Turn ν σ)}

theorem Tour.passed (h : alive x e.key = false) (tail : Tour alive ask x turns y) :
    Tour alive ask x (⟨e, x, none, x⟩ :: turns) y :=
  .cons rfl ⟨fun _ => ⟨rfl, rfl⟩, fun hyes => by simp [h] at hyes⟩ tail

theorem Tour.asked (h : alive x e.key = true) {r : Option ν} (hask : ask e x r z)
    (tail : Tour alive ask z turns y) : Tour alive ask x (⟨e, x, r, z⟩ :: turns) y :=
  .cons rfl ⟨fun hno => by simp [h] at hno, fun _ => hask⟩ tail

end

def heirsOf (turns : List (Turn ν σ)) : List (Entry ν) := turns.filterMap Turn.entry?

theorem mem_heirsOf {turns : List (Turn ν σ)} {f : Entry ν} :
    f ∈ heirsOf turns ↔ ∃ τ ∈ turns, ∃ value, τ.heir = some value ∧ { τ.entry with value } = f := by
  simp only [heirsOf, List.mem_filterMap, Turn.entry?_eq_some_iff]

theorem keys_heirsOf_sublist (turns : List (Turn ν σ)) :
    ((heirsOf turns).map Entry.key).Sublist ((turns.map Turn.entry).map Entry.key) := by
  induction turns with
  | nil => exact List.Sublist.refl _
  | cons τ rest ih =>
    unfold heirsOf at ih ⊢
    rw [List.filterMap_cons]
    cases h : τ.entry? with
    | none => exact ih.cons τ.entry.key
    | some f =>
      simp only [List.map_cons, Turn.entry?_key h]
      exact ih.cons_cons τ.entry.key

theorem values_heirsOf (turns : List (Turn ν σ)) :
    (heirsOf turns).map Entry.value = turns.filterMap Turn.heir := by
  unfold heirsOf
  rw [List.map_filterMap]
  refine List.filterMap_congr fun τ _ => ?_
  unfold Turn.entry?
  cases τ.heir <;> rfl

namespace Table

variable {alive : σ → Liveness} {childValue : Table ν → Entry ν → Exec σ (Option ν)}

abbrev walk (alive : σ → Liveness) (childValue : Table ν → Entry ν → Exec σ (Option ν)) (child : Table ν)
    (entries : List (Entry ν)) : Exec σ (Table ν) :=
  inheritAll (fun key => return alive (← get) key) childValue child entries

theorem walk_cons_passed {e : Entry ν} {x : σ} (h : alive x e.key = false) (child : Table ν)
    (rest : List (Entry ν)) :
    walk alive childValue child (e :: rest) x = walk alive childValue child rest x := by
  show (if alive x e.key then _ else _ : Exec σ (Table ν)) x = _
  rw [if_neg (by simp [h])]

theorem walk_cons_asked {e : Entry ν} {x : σ} (h : alive x e.key = true) (child : Table ν)
    (rest : List (Entry ν)) :
    walk alive childValue child (e :: rest) x =
      match childValue child e x with
      | .ok (some value) y => walk alive childValue (child.inherit e value) rest y
      | .ok none y => walk alive childValue child rest y
      | .error i y => .error i y := by
  show (if alive x e.key then _ else _ : Exec σ (Table ν)) x = _
  rw [if_pos h]
  show EStateM.bind (childValue child e) _ x = _
  unfold EStateM.bind
  cases childValue child e x with
  | ok r y => cases r <;> rfl
  | error i y => rfl

theorem walk_cons_error {e : Entry ν} {child : Table ν} {x y : σ} {i : Interrupt} (h : alive x e.key = true)
    (hvalue : childValue child e x = .error i y) (rest : List (Entry ν)) :
    walk alive childValue child (e :: rest) x = .error i y := by
  rw [walk_cons_asked h, hvalue]

/-- A finished walk was a tour of all entries, and the child has what came of it. -/
theorem walk_ok (ask : Entry ν → σ → Option ν → σ → Prop)
    (hask : ∀ child e x r y, childValue child e x = .ok r y → ask e x r y) {entries : List (Entry ν)}
    {child c : Table ν} {x y : σ}
    (h : walk alive childValue child entries x = .ok c y) :
    ∃ turns, turns.map Turn.entry = entries ∧ Tour alive ask x turns y ∧ c = child.endow (heirsOf turns) := by
  induction entries generalizing child x with
  | nil =>
    cases h
    exact ⟨[], rfl, .nil _, rfl⟩
  | cons e rest ih =>
    cases halive : alive x e.key with
    | false =>
      rw [walk_cons_passed halive] at h
      obtain ⟨turns, hturns, htour, hc⟩ := ih h
      exact ⟨⟨e, x, none, x⟩ :: turns, by simp [hturns], htour.passed halive, hc⟩
    | true =>
      rw [walk_cons_asked halive] at h
      cases hvalue : childValue child e x with
      | error i z => simp [hvalue] at h
      | ok r z =>
        rw [hvalue] at h
        have hr := hask child e x r z hvalue
        cases r with
        | none =>
          obtain ⟨turns, hturns, htour, hc⟩ := ih h
          exact ⟨⟨e, x, none, z⟩ :: turns, by simp [hturns], htour.asked halive hr, hc⟩
        | some value =>
          obtain ⟨turns, hturns, htour, hc⟩ := ih h
          exact ⟨⟨e, x, some value, z⟩ :: turns, by simp [hturns], htour.asked halive hr,
            hc.trans (endow_cons child e value _)⟩

/-- An interrupted walk was a tour up to the entry whose child's value could not be had. -/
theorem walk_error (ask : Entry ν → σ → Option ν → σ → Prop)
    (hask : ∀ child e x r y, childValue child e x = .ok r y → ask e x r y) {entries : List (Entry ν)}
    {child : Table ν} {x y : σ} {i : Interrupt}
    (h : walk alive childValue child entries x = .error i y) :
    ∃ turns e rest m, entries = turns.map Turn.entry ++ e :: rest ∧ Tour alive ask x turns m ∧
      alive m e.key = true ∧ childValue (child.endow (heirsOf turns)) e m = .error i y := by
  induction entries generalizing child x with
  | nil => cases h
  | cons e rest ih =>
    cases halive : alive x e.key with
    | false =>
      rw [walk_cons_passed halive] at h
      obtain ⟨turns, f, after, m, hrest, htour, hm, herr⟩ := ih h
      exact ⟨⟨e, x, none, x⟩ :: turns, f, after, m, by simp [hrest], htour.passed halive, hm, herr⟩
    | true =>
      rw [walk_cons_asked halive] at h
      cases hvalue : childValue child e x with
      | error j z =>
        rw [hvalue] at h
        cases h
        exact ⟨[], e, rest, x, rfl, .nil x, halive, hvalue⟩
      | ok r z =>
        rw [hvalue] at h
        have hr := hask child e x r z hvalue
        cases r with
        | none =>
          obtain ⟨turns, f, after, m, hrest, htour, hm, herr⟩ := ih h
          exact ⟨⟨e, x, none, z⟩ :: turns, f, after, m, by simp [hrest], htour.asked halive hr, hm, herr⟩
        | some value =>
          obtain ⟨turns, f, after, m, hrest, htour, hm, herr⟩ := ih h
          rw [endow_cons] at herr
          exact ⟨⟨e, x, some value, z⟩ :: turns, f, after, m, by simp [hrest], htour.asked halive hr, hm, herr⟩

/-- A walk that asks what a tour asked makes the turns of the tour, and goes on from there. -/
theorem walk_of_tour (ask : Entry ν → σ → Option ν → σ → Prop)
    (hask : ∀ child e x r y, ask e x r y → childValue child e x = .ok r y) {turns : List (Turn ν σ)} {x y : σ}
    (h : Tour alive ask x turns y) (child : Table ν) (rest : List (Entry ν)) :
    walk alive childValue child (turns.map Turn.entry ++ rest) x =
      walk alive childValue (child.endow (heirsOf turns)) rest y := by
  induction h generalizing child with
  | nil x => rfl
  | @cons x y τ turns here fair tail ih =>
    subst here
    rw [List.map_cons, List.cons_append]
    cases halive : alive τ.before τ.entry.key with
    | false =>
      obtain ⟨hheir, hafter⟩ := fair.passed halive
      have hnone : heirsOf (τ :: turns) = heirsOf turns := by simp [heirsOf, Turn.entry?, hheir]
      rw [walk_cons_passed halive, hnone, ← hafter]
      exact ih child
    | true =>
      rw [walk_cons_asked halive, hask child _ _ _ _ (fair.asked halive)]
      cases hheir : τ.heir with
      | none =>
        have hnone : heirsOf (τ :: turns) = heirsOf turns := by simp [heirsOf, Turn.entry?, hheir]
        rw [hnone]
        exact ih child
      | some value =>
        have hsome : heirsOf (τ :: turns) = { τ.entry with value } :: heirsOf turns := by
          simp [heirsOf, Turn.entry?, hheir]
        rw [hsome, ← endow_cons]
        exact ih (child.inherit τ.entry value)

/-! ## The child of a tour -/

section
variable {t : Table ν} {turns : List (Turn ν σ)} {key : Identity}

theorem WellFormed.endow_heirsOf (h : t.WellFormed) (hturns : turns.map Turn.entry = t.entries) :
    ((empty t.capacity).endow (heirsOf turns)).WellFormed ∧
      ((empty t.capacity).endow (heirsOf turns)).capacity = t.capacity ∧
      ((empty t.capacity).endow (heirsOf turns)).entries.Perm (heirsOf turns) := by
  have hkeys := keys_heirsOf_sublist turns
  rw [hturns] at hkeys
  refine h.endow hkeys fun f hf => ?_
  obtain ⟨τ, hτ, value, -, rfl⟩ := mem_heirsOf.1 hf
  exact h.hash_eq τ.entry (hturns ▸ List.mem_map_of_mem hτ)

/-- The child has what came of the turn of an identity. -/
theorem WellFormed.valueOf?_endow (h : t.WellFormed) (hturns : turns.map Turn.entry = t.entries) {v : ν} :
    ((empty t.capacity).endow (heirsOf turns)).valueOf? key = some v ↔
      ∃ τ ∈ turns, τ.entry.key = key ∧ τ.heir = some v := by
  obtain ⟨hwf, -, hent⟩ := h.endow_heirsOf hturns
  rw [valueOf?_eq_some_iff hwf.nodup]
  constructor
  · rintro ⟨f, hf, hkey, hv⟩
    obtain ⟨τ, hτ, value, hheir, rfl⟩ := mem_heirsOf.1 (hent.mem_iff.1 hf)
    obtain rfl : value = v := hv
    exact ⟨τ, hτ, hkey, hheir⟩
  · rintro ⟨τ, hτ, hkey, hheir⟩
    have hmem := hent.mem_iff.2 (mem_heirsOf.2 ⟨τ, hτ, v, hheir, rfl⟩)
    exact ⟨{ τ.entry with value := v }, hmem, hkey, rfl⟩

end

end Table

end PerThread
