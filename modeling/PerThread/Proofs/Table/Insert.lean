import PerThread.Proofs.Table.Lookup
import PerThread.Proofs.Table.Rebuild

/-!
# Storing and erasing

Storing a value for a live identity changes the table in three steps: a write brings the new entry in
(`Written`), cleaning follows, and a table that is full all the same is rebuilt with twice the slots.
`Stored` is the outcome: the new entry came, and what left is stale or was the entry of the same identity.

The difficult case is a stale slot on the way. The entry of the identity may stand further on in the run;
the two change places then, and the stale one is expunged where it has come to stand.
-/

namespace PerThread.Table

variable {ν : Type} {live : Liveness} {t u w : Table ν} {key : Identity} {value : ν}

/-! ## What the searches find -/

/-- A search that a free slot would satisfy finds the first slot that satisfies it. -/
theorem Sound.seek (h : t.Sound) {p : Option (Entry ν) → Bool} (hp : p none = true) {i : Nat}
    (hi : i < t.capacity) :
    ∃ j, t.slots.seek p i = some j ∧ Cyclic.First t.capacity (fun x => p (t.entryAt x)) i j := by
  obtain ⟨z, hz, hfree⟩ := h.exists_free
  exact Cyclic.seek_first (p := fun x => p (t.entryAt x)) hi hz (by simp only [hfree, hp])

theorem Sound.home_lt (h : t.Sound) (hash : UInt32) : t.slots.home hash < t.capacity :=
  Table.home_lt (Nat.zero_lt_of_lt h.room) hash

/-- The first slot of interest to an insertion, and what lies before it. -/
theorem Sound.seek_insert (h : t.Sound) (live : Liveness) (key : Identity) :
    ∃ i, t.slots.seek (·.all fun e => e.belongs live key || e.stale live) (t.slots.home key.hash) = some i ∧
      i < t.capacity ∧ t.Passed live key i ∧
      ∀ e, t.entryAt i = some e → e.belongs live key = true ∨ e.stale live = true := by
  obtain ⟨i, hseek, hf⟩ := h.seek (p := (·.all fun e => e.belongs live key || e.stale live)) rfl
    (h.home_lt key.hash)
  refine ⟨i, hseek, hf.lt, fun x hx hd => ?_, fun e he => ?_⟩
  · have hbefore := hf.before x hx hd
    cases he : t.entryAt x with
    | none => simp [he] at hbefore
    | some e =>
      simp only [he, Option.all_some, Bool.or_eq_false_iff] at hbefore
      refine ⟨e, rfl, hbefore.2, fun hkey => ?_⟩
      have := Entry.belongs_iff.2 ⟨hkey, hbefore.2⟩
      simp [hbefore.1] at this
  · simpa [he] using hf.sat

/-- The way that was passed leads to the slot at hand. -/
theorem Passed.leads {i : Nat} (h : t.Passed live key i) (hi : i < t.capacity)
    (hocc : (t.entryAt i).isSome) : t.slots.Leads key.hash i :=
  Slots.leads_of_before hi hocc fun x hx hd => by
    obtain ⟨e, he, -⟩ := h x hx hd
    rw [show t.slots.entryAt x = some e from he]
    rfl

theorem Passed.absent {i : Nat} (h : t.Passed live key i) (ht : t.WellFormed) (hi : i < t.capacity)
    (hfree : t.entryAt i = none) : ∀ e ∈ t.entries, e.key ≠ key :=
  ht.toSound.absent ht.hash_eq hi hfree fun x hx hd e he => by
    obtain ⟨f, hf, -, hkey⟩ := h x hx hd
    rw [he] at hf
    cases hf
    exact hkey

/-! ## Erasing -/

/-- Erasing expunges the slot of the identity, if there is one. -/
theorem WellFormed.erase (h : t.WellFormed) (hlive : live key = true) :
    (∀ e ∈ t.entries, e.key ≠ key) ∧ t.erase live key = t ∨
    ∃ i e, t.entryAt i = some e ∧ e.key = key ∧ t.erase live key = (t.expunge live i).2 := by
  obtain ⟨i, hseek, hf⟩ := h.seek (p := (·.all (·.belongs live key))) rfl (h.home_lt key.hash)
  unfold Table.erase
  rw [hseek]
  cases he : t.entryAt i with
  | none =>
    refine Or.inl ⟨h.toSound.absent h.hash_eq hf.lt he fun x hx hd e hx' hkey => ?_, by simp [he]⟩
    have hbefore := hf.before x hx hd
    have hb : e.belongs live key = true :=
      Entry.belongs_iff.2 ⟨hkey, by simp [Entry.stale_eq hkey, hlive]⟩
    simp [hx', hb] at hbefore
  | some e =>
    have hsat := hf.sat
    simp only [he, Option.all_some] at hsat
    exact Or.inr ⟨i, e, he, (Entry.belongs_iff.1 hsat).1, by simp [he]⟩

/-! ## The outcome of storing -/

/-- The new entry is in the table, and what left for it is stale or was the entry of its identity. -/
structure Written (live : Liveness) (t : Table ν) (key : Identity) (value : ν) (w : Table ν) : Prop where
  sound : w.Sound
  capacity_eq : w.capacity = t.capacity
  threshold_eq : w.threshold = t.threshold
  turnover : ∃ out, t.Turnover out [.of key value] w ∧ ∀ e ∈ out, e.stale live = true ∨ e.key = key
  mem : Entry.of key value ∈ w.entries

/-- A value was stored: the same with a well-formed table, which may have grown. In that case it holds
live entries only, and at least half as many as it had slots before. -/
structure Stored (live : Liveness) (t : Table ν) (key : Identity) (value : ν) (u : Table ν) : Prop where
  wellFormed : u.WellFormed
  turnover : ∃ out, t.Turnover out [.of key value] u ∧ ∀ e ∈ out, e.stale live = true ∨ e.key = key
  mem : Entry.of key value ∈ u.entries
  grown : u.capacity = t.capacity ∨
    u.capacity = 2 * t.capacity ∧ t.capacity ≤ 2 * u.len ∧ ∀ e ∈ u.entries, e.stale live = false

theorem Written.cleaned {out : List (Entry ν)} (h : Written live t key value w) (hlive : live key = true)
    (hc : w.Cleaned live out u) : Written live t key value u := by
  obtain ⟨out', hto, hout⟩ := h.turnover
  refine ⟨hc.sound, hc.capacity_eq.trans h.capacity_eq, hc.threshold_eq.trans h.threshold_eq,
    ⟨out' ++ out, by simpa using hto.trans hc.turnover, fun e he => ?_⟩,
    (hc.mem_iff (by simp [Entry.of, Entry.stale, hlive])).2 h.mem⟩
  exact (List.mem_append.1 he).elim (hout e) fun he => Or.inl (hc.stale e he)

/-- The hash codes stay those of the identities. -/
theorem Written.hash_eq (h : Written live t key value w) (ht : t.WellFormed) :
    ∀ e ∈ w.entries, e.hash = e.key.hash := by
  obtain ⟨out, hto, -⟩ := h.turnover
  intro e he
  rcases hto.mem_of_mem he with he | he
  · exact ht.hash_eq e he
  · rw [List.mem_singleton.1 he]
    rfl

theorem Written.wellFormed (h : Written live t key value w) (ht : t.WellFormed) (hlt : w.len < w.threshold) :
    w.WellFormed :=
  { h.sound with
    power := by rw [h.capacity_eq]; exact ht.power
    initial_le := by rw [h.capacity_eq]; exact ht.initial_le
    threshold_eq := by rw [h.capacity_eq, h.threshold_eq]; exact ht.threshold_eq
    len_lt := hlt
    hash_eq := h.hash_eq ht }

theorem Written.stored (h : Written live t key value w) (ht : t.WellFormed) (hlt : w.len < w.threshold) :
    Stored live t key value w :=
  ⟨h.wellFormed ht hlt, h.turnover, h.mem, Or.inl h.capacity_eq⟩

/-! ## Numbers -/

theorem four_dvd_capacity {c : Nat} (hc : c.isPowerOfTwo) (h16 : initialCapacity ≤ c) : 4 ∣ c := by
  obtain ⟨k, rfl⟩ := hc
  have hk : 2 ≤ k := by
    by_contra hlt
    have hle : 2 ^ k ≤ 2 ^ 1 := Nat.pow_le_pow_right (by decide) (by omega)
    unfold initialCapacity at h16
    omega
  exact Nat.pow_dvd_pow 2 hk

/-- Three quarters of two thirds, rounded as they are, are one half. -/
theorem thresholdFor_sub_quarter {c : Nat} (hc : c.isPowerOfTwo) (h16 : initialCapacity ≤ c) :
    thresholdFor c - thresholdFor c / 4 = c / 2 := by
  have hfour := four_dvd_capacity hc h16
  unfold thresholdFor
  omega

/-- A table of this size is at least half full of what it keeps when it grows. -/
theorem half_le_of_grow {c n : Nat} (hc : c.isPowerOfTwo) (h16 : initialCapacity ≤ c)
    (h : n ≥ thresholdFor c - thresholdFor c / 4) : c ≤ 2 * n := by
  have hfour := four_dvd_capacity hc h16
  rw [thresholdFor_sub_quarter hc h16] at h
  omega

theorem thresholdFor_lt_double {c : Nat} (h16 : initialCapacity ≤ c) :
    thresholdFor c < thresholdFor (2 * c) := by
  unfold thresholdFor
  unfold initialCapacity at h16
  omega

theorem thresholdFor_lt {c : Nat} (h16 : initialCapacity ≤ c) : thresholdFor c < c := by
  unfold thresholdFor
  unfold initialCapacity at h16
  omega

/-! ## A free slot -/

/-- A table is swept before it doubles, and so gives nothing up as it doubles. -/
theorem Sound.grow_sweep (h : t.Sound) (live : Liveness) :
    ((t.sweep live).grow live).Sound ∧ (t.sweep live).Turnover [] [] ((t.sweep live).grow live) ∧
      ((t.sweep live).grow live).len = (t.sweep live).len := by
  obtain ⟨out, hc, hclean⟩ := h.sweep live
  obtain ⟨hsound, hto⟩ := hc.sound.grow live
  have hnone : (t.sweep live).entries.filter (·.stale live) = [] :=
    List.filter_eq_nil_iff.2 fun e he => by simp [hclean e he]
  rw [hnone] at hto
  have hlen := hto.length_eq
  have hold := hc.sound.len_eq
  have hnew := hsound.len_eq
  simp only [List.length_nil] at hlen
  exact ⟨hsound, hto, by omega⟩

/-- A full table makes room: it drops what is stale, and doubles if it is still rather full. -/
theorem Written.makeRoom (h : Written live t key value w) (ht : t.WellFormed) (hlive : live key = true)
    (hlen : w.len ≤ w.threshold) : Stored live t key value (w.makeRoom live).1 := by
  obtain ⟨out, hc, hclean⟩ := h.sound.sweep live
  have hv := h.cleaned hlive hc
  have hle := hc.len_eq h.sound
  have hthr := hc.threshold_eq
  have h16 : initialCapacity ≤ t.capacity := ht.initial_le
  obtain ⟨hsound, hto, hgrown⟩ := h.sound.grow_sweep live
  unfold Table.makeRoom
  generalize w.sweep live = v at hc hclean hv hle hthr hsound hto hgrown
  have hvthr : v.threshold = thresholdFor t.capacity := hv.threshold_eq.trans ht.threshold_eq
  dsimp only
  split
  · rename_i hgrow
    obtain ⟨out', hto', hout'⟩ := hv.turnover
    have hcap : (v.grow live).capacity = 2 * t.capacity := by rw [capacity_grow, hv.capacity_eq]
    have hlt := thresholdFor_lt_double h16
    refine ⟨{ hsound with
      power := ?_
      initial_le := by show initialCapacity ≤ (v.grow live).capacity; omega
      threshold_eq := threshold_grow v live
      len_lt := ?_
      hash_eq := fun e he => hv.hash_eq ht e (hto.mem_iff.1 he) },
      ⟨out', by simpa using hto'.trans hto, hout'⟩, hto.mem_iff.2 hv.mem,
      Or.inr ⟨hcap, ?_, fun e he => hclean e (hto.mem_iff.1 he)⟩⟩
    · rw [hcap, Nat.mul_comm]
      exact Nat.isPowerOfTwo_mul_two_of_isPowerOfTwo ht.power
    · show (v.grow live).len < (v.grow live).threshold
      rw [hgrown, threshold_grow, hcap]
      omega
    · rw [hvthr] at hgrow
      rw [hgrown]
      exact half_le_of_grow ht.power h16 hgrow
  · rename_i hroom
    exact hv.stored ht (by omega)

theorem fill_eq (t : Table ν) (live : Liveness) (e : Entry ν) (i : Nat) :
    t.fill live e i =
      let s := (t.occupy i e).scan live i (t.occupy i e).len
      if s.hits = 0 ∧ s.table.len ≥ s.table.threshold then
        ((s.table.makeRoom live).1, some (s.table.makeRoom live).2)
      else (s.table, none) := rfl

/-- The free slot to which the way of `key` leads may take a new entry. -/
theorem WellFormed.written_occupy (h : t.WellFormed) {i : Nat} (hi : i < t.capacity) (hfree : t.entryAt i = none)
    (hpassed : t.Passed live key i) (value : ν) : Written live t key value (t.occupy i (.of key value)) := by
  have habsent := hpassed.absent h hi hfree
  have hlt := h.len_lt
  have hthr := h.threshold_eq
  have hcap := thresholdFor_lt h.initial_le
  have hlead : (t.occupy i (.of key value)).slots.Leads key.hash i := by
    refine Slots.leads_of_before ?_ ?_ fun x hx hd => ?_
    · exact (Slots.size_put ..).symm ▸ hi
    · rw [occupy, Slots.entryAt_put hi, if_pos rfl]
      rfl
    · rw [occupy, Slots.size_put] at hx
      rw [occupy, Slots.home_put, Slots.size_put] at hd
      obtain ⟨e, he, -⟩ := hpassed x hx hd
      exact Slots.entryAt_put_isSome hi _ (by rw [show t.slots.entryAt x = some e from he]; rfl)
  have hsound := h.toSound.occupy (e := .of key value) hi hfree (by omega) habsent hlead
  have hto := turnover_occupy hi hfree (Entry.of key value)
  have hat : (t.occupy i (.of key value)).entryAt i = some (.of key value) := by
    rw [occupy, entryAt, Slots.entryAt_put hi, if_pos rfl]
  exact ⟨hsound, capacity_occupy .., rfl, ⟨[], hto, by simp⟩, mem_entries_of_entryAt hat⟩

/-- A new entry takes the free slot to which the way leads. -/
theorem WellFormed.fill (h : t.WellFormed) (hlive : live key = true) {i : Nat} (hi : i < t.capacity)
    (hfree : t.entryAt i = none) (hpassed : t.Passed live key i) (value : ν) :
    Stored live t key value (t.fill live (.of key value) i).1 := by
  have hlt := h.len_lt
  have hthr := h.threshold_eq
  have hw := h.written_occupy hi hfree hpassed value
  have hsound := hw.sound
  have hlen : (t.occupy i (.of key value)).len = t.len + 1 := rfl
  rw [fill_eq]
  dsimp only
  generalize t.occupy i (.of key value) = w at hsound hw hlen ⊢
  obtain ⟨out, hc, hnone, hsome⟩ := hsound.scan live i w.len
  have hw' := hw.cleaned hlive hc
  have hle := hc.len_eq hsound
  have hthr' := hw'.threshold_eq
  generalize w.scan live i w.len = s at hc hnone hsome hw' hle hthr'
  split
  · exact hw'.makeRoom h hlive (by omega)
  · rename_i hno
    refine hw'.stored h ?_
    by_cases hhits : s.hits = 0
    · have : ¬ s.table.len ≥ s.table.threshold := fun hge => hno ⟨hhits, hge⟩
      omega
    · have := List.length_pos_of_ne_nil (hsome hhits)
      omega

end PerThread.Table
