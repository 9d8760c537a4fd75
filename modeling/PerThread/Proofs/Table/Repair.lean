import PerThread.Proofs.Table.Sound

/-!
# Expunging a slot

While a run is being repaired the table is not sound: slots that have been walked may be free although
entries further on were found across them. `Walk z a i` says what holds instead when slot `a` was emptied
and the walk has come to slot `i`, seen from a free slot `z` behind which the ring is cut open. Every
home is at or before its entry, and a gap between them lies between `a` and `i`, the entry being at or
behind `i`. When the walk meets a free slot, no entry behind it can have its home before it, so there
are no gaps (`Walk.sound`).

`Expunged` collects what expunging slot `i` does to the slots from `i` up to the next free one: the
values of the entry in `i` and of the stale ones are given up in the order of the walk, no stale entry is
left there, and all other slots are as before.
-/

namespace PerThread.Table

open Cyclic (rank)

variable {ν : Type} {live : Liveness} {t u v : Table ν}

/-- The entries in `d` slots from slot `i` on, in the order of a walk. -/
def arc (t : Table ν) : Nat → Nat → List (Entry ν)
  | _, 0 => []
  | i, d + 1 => (t.entryAt i).toList ++ arc t (t.next i) d

/-! ## Single steps -/

theorem discard_eq {i : Nat} {e : Entry ν} (h : t.entryAt i = some e) :
    t.discard i =
      { t with slots := t.slots.put i none, len := t.len - 1, reclaimed := t.reclaimed ++ [e.value] } := by
  unfold discard
  rw [h]

theorem entryAt_discard {i : Nat} {e : Entry ν} (h : t.entryAt i = some e) (x : Nat) :
    (t.discard i).entryAt x = if i = x then none else t.entryAt x := by
  rw [discard_eq h]
  exact Slots.entryAt_put (lt_of_entryAt h) none x

theorem len_discard {i : Nat} {e : Entry ν} (h : t.entryAt i = some e) : (t.discard i).len = t.len - 1 := by
  rw [discard_eq h]

theorem shed_discard (live : Liveness) {i : Nat} {e : Entry ν} (h : t.entryAt i = some e) :
    t.Shed live [e] (t.discard i) := by
  refine ⟨capacity_discard t i, by rw [discard_eq h], ⟨?_, by rw [discard_eq h]; rfl⟩, fun j f hj => ?_⟩
  · rw [discard_eq h, List.append_nil]
    exact Slots.entries_put_none h
  · rw [entryAt_discard h] at hj
    split at hj
    · cases hj
    · exact ⟨j, hj, Nat.le_refl _, fun _ => rfl⟩

/-- Where the walk puts a live entry: the first slot from its home on that is free once its own is. -/
theorem settle_first {i : Nat} {e : Entry ν} (h : t.entryAt i = some e) :
    ∃ p, Cyclic.First t.capacity (fun x => i = x ∨ (t.entryAt x).isNone) (t.slots.home e.hash) p ∧
      (t.slots.put i none).place e = (t.slots.put i none).put p (some e) := by
  have hi := lt_of_entryAt h
  have hput (x : Nat) : (t.slots.put i none).entryAt x = if i = x then none else t.entryAt x :=
    Slots.entryAt_put hi none x
  obtain ⟨p, hf, heq⟩ := Slots.place_first (s := t.slots.put i none) (by rw [Slots.size_put]; exact hi)
    (by rw [hput, if_pos rfl]) e
  rw [Slots.home_put, Slots.size_put] at hf
  refine ⟨p, ⟨hf.lt, ?_, fun x hx hd => ?_⟩, heq⟩
  · have := hf.sat
    rw [hput] at this
    grind
  · have := hf.before x hx hd
    rw [hput] at this
    grind

theorem entryAt_settle {i p : Nat} {e : Entry ν} (hi : i < t.capacity) (hp : p < t.capacity)
    (heq : (t.slots.put i none).place e = (t.slots.put i none).put p (some e)) (x : Nat) :
    (t.settle i e).entryAt x = if p = x then some e else if i = x then none else t.entryAt x := by
  have hat := Slots.entryAt_put (s := t.slots.put i none) (i := p) (by rw [Slots.size_put]; exact hp)
    (some e) x
  rw [← heq, Slots.entryAt_put hi] at hat
  exact hat

theorem shed_settle {i : Nat} {e : Entry ν} (h : t.entryAt i = some e) (hlive : e.stale live = false) :
    t.Shed live [] (t.settle i e) := by
  have hi := lt_of_entryAt h
  obtain ⟨p, hf, heq⟩ := settle_first h
  refine ⟨capacity_settle t i e, rfl, ⟨?_, by simp [settle]⟩, fun j f hj => ?_⟩
  · have hfree : (t.slots.put i none).entryAt p = none := by
      rw [Slots.entryAt_put hi]
      have hsat : i = p ∨ t.slots.entryAt p = none := by simpa [entryAt] using hf.sat
      grind
    have hin := Slots.entries_put_some (by rw [Slots.size_put]; exact hf.lt) hfree e
    rw [← heq] at hin
    rw [List.append_nil]
    exact (Slots.entries_put_none h).trans hin.symm
  · rw [entryAt_settle hi hf.lt heq] at hj
    by_cases hpj : p = j
    · rw [if_pos hpj] at hj
      cases hj
      exact ⟨i, h, hpj ▸ hf.le hi (by simp), fun hs => by simp [hlive] at hs⟩
    · rw [if_neg hpj] at hj
      split at hj
      · cases hj
      · exact ⟨j, hj, Nat.le_refl _, fun _ => rfl⟩

/-! ## The walk -/

/-- Slot `a` was emptied, and the walk has come to slot `i`; the ring is cut open behind `z`. -/
structure Walk (z a i : Nat) (t : Table ν) : Prop where
  cut : z < t.capacity
  free : t.entryAt z = none
  start : a < t.capacity
  here : i < t.capacity
  ahead : rank t.capacity z a ≤ rank t.capacity z i
  len_eq : t.len = t.entries.length
  nodup : (t.entries.map Entry.key).Nodup
  home_le : ∀ x e, t.entryAt x = some e →
    rank t.capacity z (t.slots.home e.hash) ≤ rank t.capacity z x
  gap : ∀ x e, t.entryAt x = some e → ∀ y < t.capacity,
    rank t.capacity z (t.slots.home e.hash) ≤ rank t.capacity z y →
    rank t.capacity z y ≤ rank t.capacity z x → t.entryAt y = none →
    rank t.capacity z i ≤ rank t.capacity z x ∧ rank t.capacity z a ≤ rank t.capacity z y ∧
      rank t.capacity z y < rank t.capacity z i

theorem Walk.rank_next {z a i : Nat} (h : Walk z a i t) {e : Entry ν} (he : t.entryAt i = some e) :
    rank t.capacity z (t.next i) = rank t.capacity z i + 1 :=
  Slots.rank_next h.cut h.free he

/-- At a free slot the gaps are closed. -/
theorem Walk.sound {z a i : Nat} (h : Walk z a i t) (hi : t.entryAt i = none) : t.Sound := by
  refine ⟨h.len_eq, h.len_eq ▸ Slots.length_entries_lt h.cut h.free, fun x e he => ?_, h.nodup⟩
  refine (leads_iff_rank h.cut h.free (lt_of_entryAt he) e.hash).2 ⟨h.home_le x e he, ?_⟩
  intro y hy h1 h2
  by_contra hno
  obtain ⟨hix, _, hyi⟩ := h.gap x e he y hy h1 h2 (by simpa using hno)
  -- the free slot at hand would be a gap as well
  have := h.gap x e he i h.here (by omega) hix hi
  omega

/-- A sound table has no gaps, wherever a walk may begin. -/
theorem Sound.walk (h : t.Sound) {z i : Nat} (hz : z < t.capacity) (hfree : t.entryAt z = none)
    (hi : i < t.capacity) : Walk z i i t := by
  refine ⟨hz, hfree, hi, hi, Nat.le_refl _, h.len_eq, h.nodup, fun x e he => (h.led_rank hz hfree he).1, ?_⟩
  intro x e he y hy h1 h2 hnone
  have hocc := (h.led_rank hz hfree he).2 y hy h1 h2
  simp [hnone] at hocc

theorem Walk.discard {z a i : Nat} (h : Walk z a i t) {e : Entry ν} (he : t.entryAt i = some e) :
    Walk z a (t.next i) (t.discard i) := by
  have hrank := h.rank_next he
  have hahead := h.ahead
  have hshed := shed_discard (fun _ => true) he
  have hlen := hshed.length_eq
  have ht := h.len_eq
  simp only [List.length_singleton] at hlen
  refine ⟨by simpa using h.cut, ?_, by simpa using h.start, by simpa using next_lt h.here,
    by simp only [capacity_discard]; omega, by rw [len_discard he]; omega, hshed.nodup h.nodup, ?_, ?_⟩
  · rw [entryAt_discard he]
    split <;> simp [h.free]
  · intro x f hx
    rw [entryAt_discard he] at hx
    split at hx
    · cases hx
    · simpa [home_congr (capacity_discard t i)] using h.home_le x f hx
  · intro x f hx y hy h1 h2 hnone
    simp only [capacity_discard, home_congr (capacity_discard t i)] at hy h1 h2 ⊢
    rw [entryAt_discard he] at hx hnone
    split at hx
    · cases hx
    · rename_i hix
      have hne : rank t.capacity z i ≠ rank t.capacity z x := fun heq =>
        hix (Cyclic.rank_inj h.cut h.here (lt_of_entryAt hx) heq)
      split at hnone
      · rename_i hiy
        subst hiy
        omega
      · have := h.gap x f hx y hy h1 h2 hnone
        omega

/-- What the walk knows of the slot where it puts a live entry. -/
theorem Walk.settled {z a i p : Nat} (h : Walk z a i t) {e : Entry ν} (he : t.entryAt i = some e)
    (hf : Cyclic.First t.capacity (fun x => i = x ∨ (t.entryAt x).isNone) (t.slots.home e.hash) p) :
    rank t.capacity z (t.slots.home e.hash) ≤ rank t.capacity z p ∧
    rank t.capacity z a ≤ rank t.capacity z p ∧ rank t.capacity z p ≤ rank t.capacity z i ∧
    ∀ y < t.capacity, rank t.capacity z (t.slots.home e.hash) ≤ rank t.capacity z y →
      rank t.capacity z y < rank t.capacity z p → i ≠ y ∧ (t.entryAt y).isSome := by
  have hhome := home_lt (Nat.zero_lt_of_lt h.here) e.hash
  have hle := h.home_le i e he
  obtain ⟨hhp, hbefore⟩ := hf.rank hhome h.cut (by simp [h.free])
  have hpi : rank t.capacity z p ≤ rank t.capacity z i := by
    by_contra hlt
    simpa using hbefore i h.here hle (by omega)
  refine ⟨hhp, ?_, hpi, fun y hy h1 h2 => ?_⟩
  · have hsat := hf.sat
    simp only [Bool.decide_or, Bool.or_eq_true, decide_eq_true_eq, Option.isNone_iff_eq_none] at hsat
    rcases hsat with rfl | hnone
    · exact h.ahead
    · exact (h.gap i e he p hf.lt hhp hpi hnone).2.1
  · have := hbefore y hy h1 h2
    simp only [Bool.decide_or, Bool.or_eq_false_iff, decide_eq_false_iff_not] at this
    exact ⟨this.1, by simpa [Option.isSome_iff_ne_none] using this.2⟩

/-- An entry put down leaves no gap but the slot that it came from. -/
theorem Walk.gap_settle {z a i p x y : Nat} (h : Walk z a i t) {e f : Entry ν}
    (he : t.entryAt i = some e)
    (hf : Cyclic.First t.capacity (fun x => i = x ∨ (t.entryAt x).isNone) (t.slots.home e.hash) p)
    (heq : (t.slots.put i none).place e = (t.slots.put i none).put p (some e))
    (hx : (t.settle i e).entryAt x = some f) (hy : y < t.capacity)
    (h1 : rank t.capacity z (t.slots.home f.hash) ≤ rank t.capacity z y)
    (h2 : rank t.capacity z y ≤ rank t.capacity z x) (hnone : (t.settle i e).entryAt y = none) :
    rank t.capacity z (t.next i) ≤ rank t.capacity z x ∧ rank t.capacity z a ≤ rank t.capacity z y ∧
      rank t.capacity z y < rank t.capacity z (t.next i) := by
  have hrank := h.rank_next he
  have hahead := h.ahead
  obtain ⟨-, -, -, hway⟩ := h.settled he hf
  have hat := entryAt_settle h.here hf.lt heq
  rw [hat] at hx hnone
  split at hnone
  · cases hnone
  · rename_i hpy
    split at hx
    · -- the entry just put down: every slot on its way was occupied
      rename_i hpx
      cases hx
      subst hpx
      have hne : rank t.capacity z y ≠ rank t.capacity z p := fun heq' =>
        hpy (Cyclic.rank_inj h.cut hf.lt hy heq'.symm)
      obtain ⟨hiy, hocc⟩ := hway y hy h1 (by omega)
      rw [if_neg hiy] at hnone
      simp [hnone] at hocc
    · split at hx
      · cases hx
      · rename_i hix
        have hne : rank t.capacity z i ≠ rank t.capacity z x := fun heq' =>
          hix (Cyclic.rank_inj h.cut h.here (lt_of_entryAt hx) heq')
        split at hnone
        · rename_i hiy
          subst hiy
          omega
        · have := h.gap x f hx y hy h1 h2 hnone
          omega

theorem Walk.settle {z a i : Nat} (h : Walk z a i t) {e : Entry ν} (he : t.entryAt i = some e)
    (hlive : e.stale live = false) : Walk z a (t.next i) (t.settle i e) := by
  have hrank := h.rank_next he
  have hahead := h.ahead
  have hshed := shed_settle he hlive
  have hlen := hshed.length_eq
  have ht := h.len_eq
  obtain ⟨p, hf, heq⟩ := settle_first he
  obtain ⟨hhp, -, hpi, -⟩ := h.settled he hf
  have hat := entryAt_settle h.here hf.lt heq
  have hiz : rank t.capacity z i ≠ rank t.capacity z z := fun heq' => by
    simp [Cyclic.rank_inj h.cut h.here h.cut heq', h.free] at he
  have hzend := Cyclic.rank_end h.cut
  have hir := Cyclic.rank_lt z h.here
  refine ⟨by simpa using h.cut, ?_, by simpa using h.start, by simpa using next_lt h.here,
    by simp only [capacity_settle]; omega, by simpa [Table.settle, hlen] using ht, hshed.nodup h.nodup,
    ?_, ?_⟩
  · have hpz : p ≠ z := by rintro rfl; omega
    rw [hat, if_neg hpz]
    split <;> simp [h.free]
  · intro x f hx
    simp only [capacity_settle, home_congr (capacity_settle t i e)]
    rw [hat] at hx
    split at hx
    · rename_i hpx
      cases hx
      exact hpx ▸ hhp
    · split at hx
      · cases hx
      · exact h.home_le x f hx
  · intro x f hx y hy h1 h2 hnone
    simp only [capacity_settle, home_congr (capacity_settle t i e)] at hy h1 h2 ⊢
    exact h.gap_settle he hf heq hx hy h1 h2 hnone

/-- The table after the walk has passed slot `i`: its entry `e` is dropped or settled. -/
def pass (live : Liveness) (t : Table ν) (i : Nat) (e : Entry ν) : Table ν :=
  if e.stale live then t.discard i else t.settle i e

@[simp] theorem capacity_pass (i : Nat) (e : Entry ν) : (t.pass live i e).capacity = t.capacity := by
  unfold pass
  split <;> simp

theorem Walk.pass {z a i : Nat} (h : Walk z a i t) {e : Entry ν} (he : t.entryAt i = some e) :
    Walk z a (t.next i) (t.pass live i e) := by
  unfold Table.pass
  split
  · exact h.discard he
  · rename_i hs
    have hlive : e.stale live = false := by simpa using hs
    exact h.settle he hlive

theorem shed_pass (live : Liveness) {i : Nat} {e : Entry ν} (he : t.entryAt i = some e) :
    t.Shed live ([e].filter (·.stale live)) (t.pass live i e) := by
  unfold pass
  split
  · rename_i hs
    simpa [hs] using shed_discard live he
  · rename_i hs
    simpa [hs] using shed_settle he (by simpa using hs)

/-- What passing a slot leaves in a slot that it may have written to is live. -/
theorem Walk.entryAt_pass (live : Liveness) {z a i : Nat} (h : Walk z a i t) {e : Entry ν}
    (he : t.entryAt i = some e) (x : Nat) :
    (t.pass live i e).entryAt x = t.entryAt x ∧ i ≠ x ∨
    rank t.capacity z a ≤ rank t.capacity z x ∧ rank t.capacity z x ≤ rank t.capacity z i ∧
      ∀ f, (t.pass live i e).entryAt x = some f → f.stale live = false := by
  have hahead := h.ahead
  unfold Table.pass
  split
  · rw [entryAt_discard he]
    by_cases hix : i = x
    · subst hix
      exact Or.inr ⟨hahead, Nat.le_refl _, by simp⟩
    · exact Or.inl ⟨by rw [if_neg hix], hix⟩
  · rename_i hs
    obtain ⟨p, hf, heq⟩ := settle_first he
    obtain ⟨-, hap, hpi, -⟩ := h.settled he hf
    rw [entryAt_settle h.here hf.lt heq]
    by_cases hpx : p = x
    · subst hpx
      refine Or.inr ⟨hap, hpi, fun f hf' => ?_⟩
      rw [if_pos rfl] at hf'
      cases hf'
      simpa using hs
    · rw [if_neg hpx]
      by_cases hix : i = x
      · subst hix
        exact Or.inr ⟨hahead, Nat.le_refl _, by simp⟩
      · exact Or.inl ⟨by rw [if_neg hix], hix⟩

theorem arc_congr {z i d : Nat} (hcap : u.capacity = t.capacity) (hz : z < t.capacity)
    (hi : i < t.capacity) (hd : rank t.capacity z i + d < t.capacity)
    (h : ∀ x < t.capacity, rank t.capacity z i ≤ rank t.capacity z x → u.entryAt x = t.entryAt x) :
    u.arc i d = t.arc i d := by
  induction d generalizing i with
  | zero => rfl
  | succ d ih =>
    have hend := Cyclic.rank_end hz
    have hiz : i ≠ z := by rintro rfl; omega
    have hrank : rank t.capacity z (t.next i) = rank t.capacity z i + 1 := Cyclic.rank_next hz hi hiz
    have hnext : u.next i = t.next i := by unfold next; rw [hcap]
    simp only [arc, hnext, h i hi (Nat.le_refl _)]
    rw [ih (next_lt hi) (by omega) fun x hx hle => h x hx (by omega)]

/-- The outcome of a walk that began at slot `a`, from slot `i` on to the free slot `r`. -/
structure Repaired (live : Liveness) (z a i : Nat) (t : Table ν) (r : Nat) (u : Table ν) : Prop where
  sound : u.Sound
  lt : r < t.capacity
  le : rank t.capacity z i ≤ rank t.capacity z r
  free : t.entryAt r = none
  free_after : u.entryAt r = none
  occupied : ∀ x < t.capacity, rank t.capacity z i ≤ rank t.capacity z x →
    rank t.capacity z x < rank t.capacity z r → (t.entryAt x).isSome
  shed : t.Shed live ((t.arc i (rank t.capacity z r - rank t.capacity z i)).filter (·.stale live)) u
  frame : ∀ x < t.capacity, rank t.capacity z x < rank t.capacity z a ∨
    rank t.capacity z r < rank t.capacity z x → u.entryAt x = t.entryAt x
  clean : ∀ x < t.capacity, rank t.capacity z a ≤ rank t.capacity z x →
    rank t.capacity z x < rank t.capacity z r → ∀ e, u.entryAt x = some e → e.stale live = false

/-- Passing a slot changes nothing ahead of the walk. -/
theorem Walk.entryAt_pass_ahead (live : Liveness) {z a i : Nat} (h : Walk z a i t) {e : Entry ν}
    (he : t.entryAt i = some e) {x : Nat}
    (hle : rank t.capacity z (t.next i) ≤ rank t.capacity z x) :
    (t.pass live i e).entryAt x = t.entryAt x := by
  have hrank := h.rank_next he
  rcases h.entryAt_pass live he x with hsame | hwritten
  · exact hsame.1
  · omega

/-- Passing a slot leaves it clean behind the walk, if it was so before. -/
theorem Walk.clean_pass (live : Liveness) {z a i : Nat} (h : Walk z a i t) {e : Entry ν}
    (he : t.entryAt i = some e)
    (hclean : ∀ x < t.capacity, rank t.capacity z a ≤ rank t.capacity z x →
      rank t.capacity z x < rank t.capacity z i → ∀ f, t.entryAt x = some f → f.stale live = false)
    {x : Nat} (hx : x < t.capacity) (hax : rank t.capacity z a ≤ rank t.capacity z x)
    (hxi : rank t.capacity z x < rank t.capacity z (t.next i)) :
    ∀ f, (t.pass live i e).entryAt x = some f → f.stale live = false := by
  have hrank := h.rank_next he
  rcases h.entryAt_pass live he x with ⟨hsame, hix⟩ | ⟨-, -, hlive⟩
  · have hne : rank t.capacity z i ≠ rank t.capacity z x := fun heq =>
      hix (Cyclic.rank_inj h.cut h.here hx heq)
    rw [hsame]
    exact hclean x hx hax (by omega)
  · exact hlive

/-- The outcome from the next slot on is the outcome from this slot on. -/
theorem Walk.repaired (live : Liveness) {z a i r : Nat} (h : Walk z a i t) {e : Entry ν}
    (he : t.entryAt i = some e) (hr : Repaired live z a (t.next i) (t.pass live i e) r u) :
    Repaired live z a i t r u := by
  have hrank := h.rank_next he
  have hahead := h.ahead
  have hcap : (t.pass live i e).capacity = t.capacity := capacity_pass i e
  have hle := hr.le
  rw [hcap] at hle
  have hlt : r < t.capacity := hcap ▸ hr.lt
  have hrn := Cyclic.rank_lt z hlt
  refine ⟨hr.sound, hlt, by omega, ?_, hr.free_after, ?_, ?_, ?_, ?_⟩
  · -- free
    rw [← h.entryAt_pass_ahead live he hle]
    exact hr.free
  · -- occupied
    intro x hx h1 h2
    by_cases hxi : rank t.capacity z (t.next i) ≤ rank t.capacity z x
    · rw [← h.entryAt_pass_ahead live he hxi]
      exact hr.occupied x (by rwa [hcap]) (by rwa [hcap]) (by rwa [hcap])
    · rw [← Cyclic.rank_inj h.cut h.here hx (by omega), he]
      rfl
  · -- shed
    have hshed := (shed_pass live he).trans hr.shed
    rw [hcap, arc_congr hcap h.cut (next_lt h.here) (by omega) fun x _ => h.entryAt_pass_ahead live he,
      ← List.filter_append] at hshed
    have harc : t.arc i (rank t.capacity z r - rank t.capacity z i) =
        [e] ++ t.arc (t.next i) (rank t.capacity z r - rank t.capacity z (t.next i)) := by
      rw [show rank t.capacity z r - rank t.capacity z i =
        rank t.capacity z r - rank t.capacity z (t.next i) + 1 by omega, arc, he]
      rfl
    rw [harc]
    exact hshed
  · -- frame
    intro x hx hout
    have hu := hr.frame x (by rwa [hcap]) (by rwa [hcap])
    rw [hu]
    rcases h.entryAt_pass live he x with hsame | hwritten
    · exact hsame.1
    · omega
  · -- clean
    have := hr.clean
    rwa [hcap] at this

/-- The walk arrives, given that what lies behind it is clean. -/
theorem Walk.repair (live : Liveness) (fuel : Nat) {z a i : Nat} (h : Walk z a i t)
    (hfuel : t.capacity ≤ rank t.capacity z i + fuel)
    (hclean : ∀ x < t.capacity, rank t.capacity z a ≤ rank t.capacity z x →
      rank t.capacity z x < rank t.capacity z i → ∀ e, t.entryAt x = some e → e.stale live = false) :
    ∃ r u, Table.repair live fuel i t = some (r, u) ∧ Repaired live z a i t r u := by
  induction fuel generalizing i t with
  | zero =>
    have := Cyclic.rank_lt z h.here
    omega
  | succ fuel ih =>
    unfold Table.repair
    cases he : t.entryAt i with
    | none =>
      refine ⟨i, t, rfl, h.sound he, h.here, Nat.le_refl _, he, he, fun _ _ _ _ => by omega, ?_,
        fun _ _ _ => rfl, hclean⟩
      rw [Nat.sub_self]
      exact .refl live t
    | some e =>
      have hrank := h.rank_next he
      have hcap : (t.pass live i e).capacity = t.capacity := capacity_pass i e
      obtain ⟨r, u, hrep, hr⟩ := ih (h.pass he) (by rw [hcap]; omega) (by
        rw [hcap]
        exact fun x hx hax hxi => h.clean_pass live he hclean hx hax hxi)
      exact ⟨r, u, hrep, h.repaired live he hr⟩

/-! ## Expunging -/

/-- What expunging slot `i`, which holds `e`, does: `r` is the next free slot, and `u` the table then. -/
structure Expunged (live : Liveness) (t : Table ν) (i : Nat) (e : Entry ν) (r : Nat) (u : Table ν) :
    Prop where
  sound : u.Sound
  lt : r < t.capacity
  free : t.entryAt r = none
  free_after : u.entryAt r = none
  occupied : ∀ x < t.capacity, Cyclic.dist t.capacity i x < Cyclic.dist t.capacity i r →
    (t.entryAt x).isSome
  shed : t.Shed live (e :: (t.arc (t.next i) (Cyclic.dist t.capacity (t.next i) r)).filter (·.stale live)) u
  frame : ∀ x < t.capacity, Cyclic.dist t.capacity i r < Cyclic.dist t.capacity i x →
    u.entryAt x = t.entryAt x
  clean : ∀ x < t.capacity, Cyclic.dist t.capacity i x < Cyclic.dist t.capacity i r →
    ∀ f, u.entryAt x = some f → f.stale live = false

/-- The repair that follows when a slot is emptied comes to its end within one round. -/
theorem Sound.repair (live : Liveness) (h : t.Sound) {i : Nat} {e : Entry ν} (he : t.entryAt i = some e) :
    ∃ r u, Table.repair live t.capacity (t.next i) (t.discard i) = some (r, u) ∧
      Expunged live t i e r u := by
  obtain ⟨z, hz, hfree⟩ := h.exists_free
  have hi := lt_of_entryAt he
  have hwalk := (h.walk hz hfree hi).discard he
  have hrank := (h.walk hz hfree hi).rank_next he
  have hcap : (t.discard i).capacity = t.capacity := capacity_discard t i
  have hrest : ∀ x < t.capacity, i ≠ x → (t.discard i).entryAt x = t.entryAt x := by
    intro x _ hix
    rw [entryAt_discard he, if_neg hix]
  obtain ⟨r, u, hrep, hr⟩ := hwalk.repair live t.capacity (by omega) (by
    rw [hcap]
    intro x hx h1 h2 f hf
    rw [← Cyclic.rank_inj hz hi hx (by omega), entryAt_discard he, if_pos rfl] at hf
    cases hf)
  refine ⟨r, u, hrep, ?_⟩
  have hlt : r < t.capacity := hcap ▸ hr.lt
  have hle := hr.le
  rw [hcap] at hle
  have hir : i ≠ r := by rintro rfl; omega
  have hle' : rank t.capacity z i ≤ rank t.capacity z r := by omega
  refine ⟨hr.sound, hlt, ?_, hr.free_after, ?_, ?_, ?_, ?_⟩
  · -- free
    rw [← hrest r hlt hir]
    exact hr.free
  · -- occupied
    intro x hx hd
    obtain ⟨h1, h2⟩ := (Cyclic.dist_lt_iff_rank hz hi hlt hx hle').1 hd
    by_cases hix : i = x
    · rw [← hix, he]
      rfl
    · have hne : rank t.capacity z i ≠ rank t.capacity z x := fun heq => hix (Cyclic.rank_inj hz hi hx heq)
      rw [← hrest x hx hix]
      exact hr.occupied x (by rwa [hcap]) (by rw [hcap]; omega) (by rwa [hcap])
  · -- shed
    have hrn := Cyclic.rank_lt z hlt
    have hshed := (shed_discard live he).trans hr.shed
    rw [hcap, arc_congr hcap hz (next_lt hi) (by omega) fun x hx hle => hrest x hx
      (by rintro rfl; omega)] at hshed
    rw [Cyclic.dist_eq_rank hz (next_lt hi) hlt, if_pos hle]
    exact hshed
  · -- frame
    intro x hx hd
    have hout := (Cyclic.lt_dist_iff_rank hz hi hlt hx hle').1 hd
    rw [hr.frame x (by rwa [hcap]) (by rwa [hcap])]
    exact hrest x hx (by rintro rfl; omega)
  · -- clean
    intro x hx hd
    obtain ⟨h1, h2⟩ := (Cyclic.dist_lt_iff_rank hz hi hlt hx hle').1 hd
    exact hr.clean x (by rwa [hcap]) (by rwa [hcap]) (by rwa [hcap])

theorem Sound.expunge_eq (live : Liveness) (h : t.Sound) {i : Nat} {e : Entry ν} (he : t.entryAt i = some e) :
    Table.repair live t.capacity (t.next i) (t.discard i) = some (t.expunge live i) := by
  obtain ⟨r, u, hrep, -⟩ := h.repair live he
  have hnext : (t.discard i).next i = t.next i := by unfold next; rw [capacity_discard]
  unfold Table.expunge
  simp only [capacity_discard, hnext, hrep, Option.getD_some]

theorem Sound.expunge (live : Liveness) (h : t.Sound) {i : Nat} {e : Entry ν} (he : t.entryAt i = some e) :
    Expunged live t i e (t.expunge live i).1 (t.expunge live i).2 := by
  obtain ⟨r, u, hrep, hexp⟩ := h.repair live he
  have heq : t.expunge live i = (r, u) := Option.some.inj ((h.expunge_eq live he).symm.trans hrep)
  rw [heq]
  exact hexp

namespace Expunged

variable {i r : Nat} {e : Entry ν}

/-- The entry has gone, and no other of its identity is there. -/
theorem absent (h : Expunged live t i e r u) (ht : t.Sound) : ∀ f ∈ u.entries, f.key ≠ e.key := by
  have hkeys := (h.shed.turnover.entries.map Entry.key).nodup_iff.1 (by simpa using ht.nodup)
  simp only [List.cons_append, List.map_cons, List.nodup_cons, List.map_append, List.mem_append,
    List.mem_map] at hkeys
  exact fun f hf hkey => hkeys.1 (Or.inr ⟨f, hf, hkey⟩)

/-- Expunging fills no slot that was free. -/
theorem keeps_free (h : Expunged live t i e r u) (hi : i < t.capacity) {x : Nat} (hx : x < t.capacity)
    (hfree : t.entryAt x = none) : u.entryAt x = none := by
  rcases Nat.lt_trichotomy (Cyclic.dist t.capacity i x) (Cyclic.dist t.capacity i r) with hlt | heq | hgt
  · have := h.occupied x hx hlt
    simp [hfree] at this
  · rw [Cyclic.dist_inj hi hx h.lt heq]
    exact h.free_after
  · rw [h.frame x hx hgt, hfree]

theorem rank_lt (h : Expunged live t i e r u) (he : t.entryAt i = some e) {z : Nat} (hz : z < t.capacity)
    (hfree : t.entryAt z = none) : rank t.capacity z i < rank t.capacity z r := by
  have hi := lt_of_entryAt he
  have hne : rank t.capacity z i ≠ rank t.capacity z r := fun heq => by
    simp [Cyclic.rank_inj hz hi h.lt heq, h.free] at he
  by_contra hge
  have hdr := Cyclic.dist_eq_rank hz hi h.lt
  have hdz := Cyclic.dist_eq_rank hz hi hz
  have hend := Cyclic.rank_end hz
  have hir := Cyclic.rank_lt z hi
  have := h.occupied z hz (by grind)
  simp [hfree] at this

/-- Seen from a free slot, nothing before the expunged slot changes. -/
theorem frame_rank (h : Expunged live t i e r u) (he : t.entryAt i = some e) {z x : Nat}
    (hz : z < t.capacity) (hfree : t.entryAt z = none) (hx : x < t.capacity)
    (hlt : rank t.capacity z x < rank t.capacity z i) : u.entryAt x = t.entryAt x := by
  have hir := h.rank_lt he hz hfree
  exact h.frame x hx ((Cyclic.lt_dist_iff_rank hz (lt_of_entryAt he) h.lt hx (by omega)).2 (Or.inl hlt))

end Expunged

end PerThread.Table
