import Mathlib.Data.List.Forall2
import Mathlib.Data.Option.Basic
import PerThread.Registry

/-!
# Registries that correspond

The same names, and related things under them. Writing keeps that up, as the place of a binding depends on its
name alone.
-/

namespace PerThread.Registry

variable {κ α β : Type} {R R' : α → β → Prop} {r : Registry κ α} {q : Registry κ β}

/-- One thing for another, under the same name. -/
def Paired (R : α → β → Prop) (b : κ × α) (c : κ × β) : Prop := b.1 = c.1 ∧ R b.2 c.2

def Alike (R : α → β → Prop) (r : Registry κ α) (q : Registry κ β) : Prop :=
  List.Forall₂ (Paired R) r.bindings q.bindings

theorem alike_empty : (empty : Registry κ α).Alike R (empty : Registry κ β) := List.Forall₂.nil

namespace Alike

theorem mono (h : r.Alike R q) (hR : ∀ a b, R a b → R' a b) : r.Alike R' q :=
  List.Forall₂.imp (fun _ _ hb => ⟨hb.1, hR _ _ hb.2⟩) h

theorem length_eq (h : r.Alike R q) : r.bindings.length = q.bindings.length := List.Forall₂.length_eq h

theorem values (h : r.Alike R q) : List.Forall₂ R r.values q.values := by
  refine List.forall₂_map_left_iff.2 (List.forall₂_map_right_iff.2 ?_)
  exact List.Forall₂.imp (fun _ _ hb => hb.2) h

theorem exists_right (h : r.Alike R q) {a : α} (ha : a ∈ r.values) : ∃ b ∈ q.values, R a b := by
  have hvalues := h.values
  revert ha hvalues
  generalize r.values = as, q.values = bs
  intro ha hvalues
  induction hvalues with
  | nil => cases ha
  | cons hab _ ih =>
    rcases List.mem_cons.1 ha with rfl | ha
    · exact ⟨_, List.mem_cons_self, hab⟩
    · obtain ⟨b, hb, hR⟩ := ih ha
      exact ⟨b, List.mem_cons_of_mem _ hb, hR⟩

theorem swap (h : r.Alike R q) : q.Alike (fun b a => R a b) r :=
  List.Forall₂.flip (List.Forall₂.imp (fun _ _ hb => ⟨hb.1.symm, hb.2⟩) h)

theorem find? [DecidableEq κ] (h : r.Alike R q) (name : κ) : Option.Rel R (r.find? name) (q.find? name) := by
  unfold Registry.find?
  obtain ⟨bs⟩ := r
  obtain ⟨cs⟩ := q
  change List.Forall₂ (Paired R) bs cs at h
  induction h with
  | nil => exact .none
  | @cons b c _ _ hbc _ ih =>
    obtain ⟨hname, hR⟩ := hbc
    simp only [List.find?_cons, hname]
    by_cases hc : c.1 = name
    · simp only [hc, decide_true]
      exact .some hR
    · simp only [hc, decide_false]
      exact ih

theorem erase [DecidableEq κ] (h : r.Alike R q) (name : κ) : (r.erase name).Alike R (q.erase name) := by
  unfold Registry.erase Alike
  obtain ⟨bs⟩ := r
  obtain ⟨cs⟩ := q
  change List.Forall₂ (Paired R) bs cs at h
  induction h with
  | nil => exact .nil
  | @cons b c _ _ hbc _ ih =>
    simp only [List.filter_cons, hbc.1]
    by_cases hc : c.1 = name
    · simp only [hc, ne_eq, not_true, decide_false]
      exact ih
    · simp only [hc, ne_eq, not_false_iff, decide_true, if_true]
      exact .cons hbc ih

theorem insertSorted [LT κ] [DecidableLT κ] {b : κ × α} {c : κ × β} (hbc : Paired R b c) {bs : List (κ × α)}
    {cs : List (κ × β)} (h : List.Forall₂ (Paired R) bs cs) :
    List.Forall₂ (Paired R) (Registry.insertSorted b bs) (Registry.insertSorted c cs) := by
  induction h with
  | nil => exact .cons hbc .nil
  | @cons b' c' _ _ hbc' hrest ih =>
    unfold Registry.insertSorted
    rw [hbc.1, hbc'.1]
    split
    · exact .cons hbc (.cons hbc' hrest)
    · exact .cons hbc' ih

theorem set [DecidableEq κ] [LT κ] [DecidableLT κ] (h : r.Alike R q) (name : κ) {a : α} {b : β} (hab : R a b) :
    (r.set name a).Alike R (q.set name b) := by
  have hrest : List.Forall₂ (Paired R) (r.erase name).bindings (q.erase name).bindings := h.erase name
  have hbc : Paired R (name, a) (name, b) := ⟨rfl, hab⟩
  exact insertSorted hbc hrest

end Alike

/-! ## What is kept afterwards -/

section
variable [DecidableEq κ]

theorem mem_values_of_find? {name : κ} {a : α} (h : r.find? name = some a) : a ∈ r.values := by
  obtain ⟨b, hb, rfl⟩ := Option.map_eq_some_iff.1 h
  exact List.mem_map_of_mem (List.mem_of_find?_eq_some hb)

theorem mem_values_of_erase {name : κ} {a : α} (h : a ∈ (r.erase name).values) : a ∈ r.values := by
  obtain ⟨b, hb, rfl⟩ := List.mem_map.1 h
  exact List.mem_map_of_mem (List.mem_filter.1 hb).1

theorem mem_values_of_set [LT κ] [DecidableLT κ] {name : κ} {a b : α} (h : b ∈ (r.set name a).values) :
    b = a ∨ b ∈ r.values := by
  obtain ⟨c, hc, rfl⟩ := List.mem_map.1 h
  rcases mem_insertSorted.1 hc with rfl | hc
  · exact Or.inl rfl
  · exact Or.inr (mem_values_of_erase (List.mem_map_of_mem hc))

end

end PerThread.Registry
