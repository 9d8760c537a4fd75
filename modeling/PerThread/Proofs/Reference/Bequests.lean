import Mathlib.Data.List.Nodup
import PerThread.Proofs.Reference.Model
import PerThread.Proofs.Table.Rebuild

/-!
# What a capture passes on

The reference goes through the variables in order, a session through the slots of a table. Both come across the
same variables (`bequests_perm`). The objects that derivations make are numbered in the order of the slots:
`rank` is the place of a variable's, and `passedOn` has the entries of the child.
-/

namespace PerThread.Reference.State

variable {s : State} {m : Map} {n k : Nat} {ns ns' : List Nat} {b : Nat × Value} {e f : Entry Ref}
  {es : List (Entry Ref)}

theorem mem_bequests :
    b ∈ s.bequests m ns ↔ b.1 ∈ ns ∧ s.live b.1 = true ∧ s.derives b.1 = true ∧ m b.1 = some b.2 := by
  unfold bequests
  rw [List.mem_filterMap]
  constructor
  · rintro ⟨n, hn, hb⟩
    rw [Option.ite_none_right_eq_some] at hb
    obtain ⟨hlive, hb⟩ := hb
    obtain ⟨v, hv, rfl⟩ := Option.map_eq_some_iff.1 hb
    obtain ⟨hlive, hderives⟩ := Bool.and_eq_true_iff.1 hlive
    exact ⟨hn, hlive, hderives, hv⟩
  · rintro ⟨hn, hlive, hderives, hv⟩
    refine ⟨b.1, hn, ?_⟩
    rw [if_pos (by rw [hlive, hderives]; rfl), hv]
    rfl

theorem bequests_cons (s : State) (m : Map) (n : Nat) (ns : List Nat) :
    s.bequests m (n :: ns) = s.bequests m [n] ++ s.bequests m ns := by
  unfold bequests
  rw [List.filterMap_cons, List.filterMap_cons]
  split <;> rfl

theorem bequests_nothing (h : (s.live n && s.derives n) = false) : s.bequests m [n] = [] := by
  unfold bequests
  rw [List.filterMap_cons, h]
  rfl

theorem bequests_one (hlive : s.live n = true) (hderives : s.derives n = true) {v : Value} (hv : m n = some v) :
    s.bequests m [n] = [(n, v)] := by
  unfold bequests
  rw [List.filterMap_cons, hlive, hderives, hv]
  rfl

theorem keys_bequests_sublist (s : State) (m : Map) (ns : List Nat) :
    ((s.bequests m ns).map Prod.fst).Sublist ns := by
  induction ns with
  | nil => exact .refl _
  | cons n rest ih =>
    unfold bequests at ih ⊢
    rw [List.filterMap_cons]
    split
    · exact ih.cons n
    · rename_i b hb
      rw [Option.ite_none_right_eq_some] at hb
      obtain ⟨v, -, rfl⟩ := Option.map_eq_some_iff.1 hb.2
      exact ih.cons_cons n

theorem nodup_bequests (h : ns.Nodup) : ((s.bequests m ns).map Prod.fst).Nodup :=
  (keys_bequests_sublist s m ns).nodup h

theorem bequests_perm (h : ns.Nodup) (h' : ns'.Nodup)
    (hmem : ∀ n v, s.live n = true → m n = some v → (n ∈ ns ↔ n ∈ ns')) :
    (s.bequests m ns).Perm (s.bequests m ns') := by
  have hnodup := (nodup_bequests (s := s) (m := m) h).of_map
  have hnodup' := (nodup_bequests (s := s) (m := m) h').of_map
  refine (List.perm_ext_iff_of_nodup hnodup hnodup').2 fun b => ?_
  rw [mem_bequests, mem_bequests]
  constructor
  · rintro ⟨hn, hlive, hderives, hv⟩
    exact ⟨(hmem _ _ hlive hv).1 hn, hlive, hderives, hv⟩
  · rintro ⟨hn, hlive, hderives, hv⟩
    exact ⟨(hmem _ _ hlive hv).2 hn, hlive, hderives, hv⟩

/-! ## Ranks -/

/-- How many derivations come before that of a variable. -/
def rank (s : State) (m : Map) (ns : List Nat) (n : Nat) : Nat := ((s.bequests m ns).map Prod.fst).idxOf n

theorem getElem?_rank (h : ns.Nodup) (hb : b ∈ s.bequests m ns) :
    (s.bequests m ns)[s.rank m ns b.1]? = some b := by
  obtain ⟨i, hi, rfl⟩ := List.getElem_of_mem hb
  have hlt : i < ((s.bequests m ns).map Prod.fst).length := by simpa using hi
  have hrank := (nodup_bequests (s := s) (m := m) h).idxOf_getElem i hlt
  rw [List.getElem_map] at hrank
  rw [rank, hrank, List.getElem?_eq_getElem hi]

theorem map_rank (h : ns.Nodup) :
    (s.bequests m ns).map (fun b => s.rank m ns b.1) = List.range (s.bequests m ns).length := by
  refine List.ext_getElem (by simp) fun i hi _ => ?_
  have hlt : i < ((s.bequests m ns).map Prod.fst).length := by simpa using hi
  have hrank := (nodup_bequests (s := s) (m := m) h).idxOf_getElem i hlt
  rw [List.getElem_map] at hrank
  rw [List.getElem_map, List.getElem_range, rank, hrank]

/-- How many derivations a variable accounts for. -/
def weight (s : State) (n : Nat) : Nat := if s.live n && s.derives n then 1 else 0

theorem length_bequests_one (hm : s.live n = true → ∃ v, m n = some v) :
    (s.bequests m [n]).length = s.weight n := by
  unfold weight
  by_cases h : (s.live n && s.derives n) = true
  · obtain ⟨hlive, hderives⟩ := Bool.and_eq_true_iff.1 h
    obtain ⟨v, hv⟩ := hm hlive
    rw [bequests_one hlive hderives hv, if_pos h]
    rfl
  · rw [bequests_nothing (by simpa using h), if_neg h]
    rfl

theorem rank_cons_of_ne (hm : s.live n = true → ∃ v, m n = some v) (hk : n ≠ k) :
    s.rank m (n :: ns) k = s.weight n + s.rank m ns k := by
  unfold rank weight
  rw [bequests_cons]
  by_cases h : (s.live n && s.derives n) = true
  · obtain ⟨hlive, hderives⟩ := Bool.and_eq_true_iff.1 h
    obtain ⟨v, hv⟩ := hm hlive
    rw [bequests_one hlive hderives hv, if_pos h, Nat.add_comm]
    exact List.idxOf_cons_ne _ hk
  · rw [bequests_nothing (by simpa using h), if_neg h, Nat.zero_add]
    rfl

theorem rank_cons_self (hlive : s.live n = true) (hderives : s.derives n = true) {v : Value} (hv : m n = some v) :
    s.rank m (n :: ns) n = 0 := by
  unfold rank
  rw [bequests_cons, bequests_one hlive hderives hv]
  exact List.idxOf_cons_self

/-! ## Entries -/

/-- The variables that a table knows, in the order of its slots. -/
def serials (es : List (Entry Ref)) : List Nat := es.map fun e => e.key.serial

/-- The child's entry for the entry `e`, if an object derived for it has the number `r`. -/
def passed (s : State) (r : Ref) (e : Entry Ref) : Entry Ref :=
  if s.derives e.key.serial then { e with value := r } else e

/-- The child's entries, if the derived objects have the numbers from `k` on. -/
def passedOn (s : State) : Nat → List (Entry Ref) → List (Entry Ref)
  | _, [] => []
  | k, e :: rest =>
    if s.live e.key.serial then s.passed k e :: s.passedOn (k + s.weight e.key.serial) rest
    else s.passedOn k rest

theorem passed_key (s : State) (r : Ref) (e : Entry Ref) : (s.passed r e).key = e.key := by
  unfold passed
  split <;> rfl

theorem passed_eq (s : State) (r : Ref) (e : Entry Ref) :
    { e with value := (s.passed r e).value } = s.passed r e := by
  unfold passed
  split <;> rfl

theorem passed_hash (s : State) (r : Ref) (e : Entry Ref) : (s.passed r e).hash = e.hash := by
  unfold passed
  split <;> rfl

theorem keys_passedOn_sublist (s : State) (k : Nat) (es : List (Entry Ref)) :
    ((s.passedOn k es).map Entry.key).Sublist (es.map Entry.key) := by
  induction es generalizing k with
  | nil => exact .refl _
  | cons e rest ih =>
    unfold passedOn
    split
    · rw [List.map_cons, List.map_cons, passed_key]
      exact (ih _).cons_cons e.key
    · exact (ih k).cons e.key

theorem mem_passedOn (hnodup : (serials es).Nodup)
    (hm : ∀ e ∈ es, s.live e.key.serial = true → ∃ v, m e.key.serial = some v) :
    f ∈ s.passedOn k es ↔
      ∃ e ∈ es, s.live e.key.serial = true ∧ s.passed (k + s.rank m (serials es) e.key.serial) e = f := by
  induction es generalizing k with
  | nil => simp [passedOn]
  | cons e rest ih =>
    obtain ⟨hnew, hrest⟩ := List.nodup_cons.1 hnodup
    obtain ⟨hme, hmrest⟩ := List.forall_mem_cons.1 hm
    -- The derivation of `e`, if there is one, comes before all others.
    have hlater {e' : Entry Ref} (he' : e' ∈ rest) :
        s.rank m (serials (e :: rest)) e'.key.serial =
          s.weight e.key.serial + s.rank m (serials rest) e'.key.serial := by
      refine rank_cons_of_ne hme fun heq => hnew ?_
      exact List.mem_map.2 ⟨e', he', heq.symm⟩
    have hfirst (hlive : s.live e.key.serial = true) :
        s.passed (k + s.rank m (serials (e :: rest)) e.key.serial) e = s.passed k e := by
      unfold passed
      by_cases hderives : s.derives e.key.serial = true
      · obtain ⟨v, hv⟩ := hme hlive
        have hrank : s.rank m (serials (e :: rest)) e.key.serial = 0 := rank_cons_self hlive hderives hv
        rw [hrank, Nat.add_zero]
      · rw [if_neg hderives, if_neg hderives]
    have htail : (∃ e' ∈ rest, s.live e'.key.serial = true ∧
          s.passed (k + s.rank m (serials (e :: rest)) e'.key.serial) e' = f) ↔
        f ∈ s.passedOn (k + s.weight e.key.serial) rest := by
      rw [ih hrest hmrest]
      refine exists_congr fun e' => and_congr_right fun he' => ?_
      rw [hlater he', Nat.add_assoc]
    rw [List.exists_mem_cons_iff, htail, passedOn]
    by_cases hlive : s.live e.key.serial = true
    · rw [if_pos hlive, List.mem_cons, hfirst hlive]
      exact or_congr_left ⟨fun h => ⟨hlive, h.symm⟩, fun h => h.2.symm⟩
    · have hweight : s.weight e.key.serial = 0 := by
        unfold weight
        simp [hlive]
      rw [if_neg hlive, hweight, Nat.add_zero]
      exact ⟨Or.inr, fun h => h.resolve_left fun h => hlive h.1⟩

end PerThread.Reference.State
