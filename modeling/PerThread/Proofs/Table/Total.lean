import PerThread.Proofs.Table.Clearing
import PerThread.Proofs.Table.Scanning
import PerThread.Proofs.Table.Strict

/-!
# The operations need no net

On a sound table each operation of `Strict` has an outcome, and it is that of the operation without the name. The
loops are followed from the limited ones, which are known to end: where the limited loop comes to an end, the other
one takes the same steps. What every step needs is that the slot at hand is there, and, where the length goes down,
that an entry is there to be counted.
-/

namespace PerThread.Table.Strict

open Cyclic (rank)

variable {ν : Type} {live : Liveness} {s : Slots ν} {t u w : Table ν} {key : Identity} {i j fuel : Nat} {e : Entry ν}

/-! ## Slots -/

theorem read_eq (hi : i < s.size) : read s i = some (s.entryAt i) := by
  simp [read, Slots.entryAt, hi]

theorem read_entryAt (hi : i < t.capacity) : read t.slots i = some (t.entryAt i) := read_eq hi

theorem write_eq (hi : i < s.size) (o : Option (Entry ν)) : write s i o = some (s.put i o) := if_pos hi

theorem decrease_eq {n : Nat} (h : 0 < n) : decrease n = some (n - 1) := if_pos h

theorem probe_of_seek {p : Option (Entry ν) → Bool} (hi : i < s.size)
    (h : Cyclic.seek s.size (fun x => p (s.entryAt x)) fuel i = some j) : probe p s i = some j := by
  induction fuel generalizing i with
  | zero => cases h
  | succ fuel ih =>
    simp only [Cyclic.seek] at h
    by_cases hp : p (s.entryAt i) = true
    · rw [if_pos hp] at h
      rw [← h]
      exact loop_end (by simp [read_eq hi, hp])
    · rw [if_neg hp] at h
      refine (loop_on ?_).trans (ih (Cyclic.next_lt (Nat.zero_lt_of_lt hi)) h)
      simp [read_eq hi, hp]

theorem place_eq {z : Nat} (hz : z < s.size) (hfree : s.entryAt z = none) (e : Entry ν) :
    place s e = some (s.place e) := by
  have hhome := Slots.home_lt (Nat.zero_lt_of_lt hz) e.hash
  obtain ⟨p, hp, hf⟩ := Cyclic.seek_first (p := fun x => (s.entryAt x).isNone) hhome hz (by simp [hfree])
  rw [place, probe_of_seek hhome hp, Slots.place, Slots.seek, hp]
  exact write_eq hf.lt (some e)

/-- Entries that fit find their slots one after another. -/
theorem foldlM_resettle (live : Liveness) (u : Table ν) (es : List (Entry ν))
    (hfit : u.entries.length + es.length < u.capacity) :
    es.foldlM (resettle live) u = some (es.foldl (Table.resettle live) u) := by
  induction es generalizing u with
  | nil => rfl
  | cons e rest ih =>
    simp only [List.length_cons] at hfit
    rw [List.foldlM_cons, List.foldl_cons]
    unfold resettle Table.resettle
    split
    · exact ih _ (by show u.entries.length + rest.length < u.capacity; omega)
    · obtain ⟨z, hz, hfree⟩ := Slots.exists_free (s := u.slots) (by
        have hle : u.slots.entries.length + (rest.length + 1) < u.slots.size := hfit
        omega)
      have hlen := (Slots.entries_place hz hfree e).length_eq
      simp only [List.length_cons] at hlen
      rw [place_eq hz hfree]
      refine ih _ ?_
      show (u.slots.place e).entries.length + rest.length < (u.slots.place e).size
      rw [Slots.size_place]
      have hle : u.slots.entries.length + (rest.length + 1) < u.slots.size := hfit
      omega

/-! ## Taking entries out -/

theorem discard_eq (hlen : t.len = t.entries.length) (he : t.entryAt i = some e) :
    discard t i = some (t.discard i) := by
  have hi := lt_of_entryAt he
  have hpos : 0 < t.len := hlen ▸ List.length_pos_of_mem (mem_entries_of_entryAt he)
  rw [Table.discard_eq he]
  simp only [discard, read_entryAt hi, he, write_eq hi, decrease_eq hpos, Option.bind_eq_bind, Option.bind_some]

theorem settle_eq (he : t.entryAt i = some e) : settle t i e = some (t.settle i e) := by
  have hi := lt_of_entryAt he
  have hplace : place (t.slots.put i none) e = some ((t.slots.put i none).place e) := by
    refine place_eq (z := i) ?_ ?_ e
    · rw [Slots.size_put]
      exact hi
    · rw [Slots.entryAt_put hi, if_pos rfl]
  simp only [settle, write_eq hi, hplace, Option.bind_eq_bind, Option.bind_some]
  rfl

theorem pass_eq (live : Liveness) (hlen : t.len = t.entries.length) (he : t.entryAt i = some e) :
    pass live t i e = some (t.pass live i e) := by
  unfold pass Table.pass
  split
  · exact discard_eq hlen he
  · exact settle_eq he

/-- The walk finds every slot that it comes to, and counts down an entry for each that it drops. -/
theorem repair_of_walk {z a : Nat} {r : Nat × Table ν} (h : Walk z a i t)
    (hrep : Table.repair live fuel i t = some r) : repair live i t = some r := by
  induction fuel generalizing i t with
  | zero => cases hrep
  | succ fuel ih =>
    unfold Table.repair at hrep
    cases he : t.entryAt i with
    | none =>
      rw [he] at hrep
      rw [← Option.some.inj hrep]
      exact loop_end (by simp [walkOn, read_entryAt h.here, he])
    | some e =>
      rw [he] at hrep
      refine (loop_on ?_).trans (ih (h.pass he) hrep)
      simp [walkOn, read_entryAt h.here, he, pass_eq live h.len_eq he]

theorem expunge_eq (live : Liveness) (h : t.Sound) (he : t.entryAt i = some e) :
    expunge t live i = some (t.expunge live i) := by
  obtain ⟨z, hz, hfree⟩ := h.exists_free
  have hnext : (t.discard i).next i = t.next i := by
    unfold Table.next
    rw [capacity_discard]
  simp only [expunge, discard_eq h.len_eq he, Option.bind_eq_bind, Option.bind_some, hnext]
  exact repair_of_walk ((h.walk hz hfree (lt_of_entryAt he)).discard he) (h.expunge_eq live he)

theorem visit_eq (live : Liveness) (h : t.Sound) (hi : i < t.capacity) :
    visit live t i = some (if t.staleAt live i then (t.expunge live i).2 else t) := by
  unfold visit
  rw [read_entryAt hi]
  simp only [Option.bind_eq_bind, Option.bind_some]
  by_cases hst : t.staleAt live i = true
  · obtain ⟨e, he, hs⟩ := staleAt_iff.1 hst
    simp [hst, he, hs, expunge_eq live h he]
  · have hany : ¬ (t.entryAt i).any (·.stale live) = true := hst
    rw [if_neg hany, if_neg hst]

/-- Slots that are there are visited one after another. -/
theorem foldlM_visit (live : Liveness) (h : t.Sound) (slots : List Nat) (hslots : ∀ i ∈ slots, i < t.capacity) :
    slots.foldlM (visit live) t =
      some (slots.foldl (fun u i => if u.staleAt live i then (u.expunge live i).2 else u) t) := by
  induction slots generalizing t with
  | nil => rfl
  | cons i rest ih =>
    rw [List.foldlM_cons, List.foldl_cons, visit_eq live h (hslots i List.mem_cons_self)]
    obtain ⟨out, hc, -⟩ := h.foldl_expunge live [i]
    rw [List.foldl_cons, List.foldl_nil] at hc
    refine ih hc.sound fun j hj => ?_
    rw [hc.capacity_eq]
    exact hslots j (List.mem_cons_of_mem _ hj)

theorem sweep_eq (live : Liveness) (h : t.Sound) : sweep t live = some (t.sweep live) :=
  foldlM_visit live h _ fun _ hi => List.mem_range.1 hi

/-- A probe that a free slot ends comes to its end. -/
theorem probe_eq (h : t.Sound) {p : Option (Entry ν) → Bool} (hp : p none = true) (hi : i < t.capacity) :
    ∃ j, t.slots.seek p i = some j ∧ probe p t.slots i = some j ∧
      Cyclic.First t.capacity (fun x => p (t.entryAt x)) i j := by
  obtain ⟨j, hseek, hf⟩ := h.seek hp hi
  exact ⟨j, hseek, probe_of_seek hi hseek, hf⟩

theorem erase_eq (live : Liveness) (h : t.Sound) (key : Identity) :
    erase t live key = some (t.erase live key) := by
  obtain ⟨j, hseek, hprobe, hf⟩ := probe_eq h (p := (·.all (·.belongs live key))) rfl (h.home_lt key.hash)
  unfold erase Table.erase
  simp only [hprobe, hseek, read_entryAt hf.lt, Option.bind_eq_bind, Option.bind_some]
  cases he : t.entryAt j with
  | none => rfl
  | some e => simp [expunge_eq live h he]

/-! ## Lookup -/

/-- A search that takes a few looks, however many were taken before it. -/
def Takes (live : Liveness) (key : Identity) (used i : Nat) (t : Table ν) (r : Option Nat × Table ν) : Prop :=
  ∀ looks, search live key looks i t = some (looks + used, r)

theorem takes_end {r : Option Nat × Table ν}
    (hstep : ∀ looks, searchOn live key ⟨looks, i, t⟩ = some (.inl (looks + 1, r))) : Takes live key 1 i t r :=
  fun looks => loop_end (hstep looks)

theorem Takes.on {used : Nat} {r : Option Nat × Table ν} (h : Takes live key used j u r)
    (hstep : ∀ looks, searchOn live key ⟨looks, i, t⟩ = some (.inr ⟨looks + 1, j, u⟩)) :
    Takes live key (used + 1) i t r := by
  intro looks
  have hadd : looks + 1 + used = looks + (used + 1) := by omega
  exact (loop_on (hstep looks)).trans (hadd ▸ h (looks + 1))

/-- Where the limited search comes to an end, the other one comes to the same end, in no more looks. -/
theorem search_of_limited {r : Option Nat × Table ν} (h : t.Sound) (hi : i < t.capacity)
    (hsearch : Table.search live key fuel i t = some r) : ∃ used ≤ fuel, Takes live key used i t r := by
  induction fuel generalizing i t with
  | zero => cases hsearch
  | succ fuel ih =>
    unfold Table.search at hsearch
    have hread := read_entryAt hi
    cases he : t.entryAt i with
    | none =>
      simp only [he] at hsearch hread
      rw [← Option.some.inj hsearch]
      exact ⟨1, by omega, takes_end fun looks => by simp [searchOn, hread]⟩
    | some e =>
      simp only [he] at hsearch hread
      by_cases hb : e.belongs live key = true
      · rw [if_pos hb] at hsearch
        rw [← Option.some.inj hsearch]
        exact ⟨1, by omega, takes_end fun looks => by simp [searchOn, hread, hb]⟩
      · rw [if_neg hb] at hsearch
        by_cases hs : e.stale live = true
        · rw [if_pos hs] at hsearch
          obtain ⟨out, hc⟩ := h.expunge_stale he hs
          obtain ⟨used, hused, hrest⟩ := ih hc.sound (by rwa [hc.capacity_eq]) hsearch
          refine ⟨used + 1, by omega, hrest.on fun looks => ?_⟩
          simp [searchOn, hread, hb, hs, expunge_eq live h he]
        · rw [if_neg hs] at hsearch
          obtain ⟨used, hused, hrest⟩ := ih h (next_lt hi) hsearch
          refine ⟨used + 1, by omega, hrest.on fun looks => ?_⟩
          simp [searchOn, hread, hb, hs]

/-- A search from home takes one look for each slot and one for each stale entry at most. -/
theorem search_eq (live : Liveness) (h : t.Sound) (key : Identity) :
    ∃ looks found out u, looks ≤ t.capacity + t.staleCount live ∧
      search live key 0 (t.slots.home key.hash) t = some (looks, found, u) ∧
      Table.search live key (t.searchLimit live) (t.slots.home key.hash) t = some (found, u) ∧
      t.Cleaned live out u ∧ ∀ i ∈ found, i < u.capacity := by
  obtain ⟨z, hz, hfree⟩ := h.exists_free
  have hhome := h.home_lt key.hash
  obtain ⟨j, found, out, u, hsearch, hc, hfound⟩ := h.search (t.searchLimit live) hz hfree hhome
    (passed_home live t key) (Nat.le_add_left _ _)
  obtain ⟨used, hused, hstrict⟩ := search_of_limited h hhome hsearch
  refine ⟨used, found, out, u, hused, by simpa using hstrict 0, hsearch, hc, ?_⟩
  intro i hi
  rcases hfound.here with ⟨hnone, -⟩ | ⟨hsome, -⟩
  · rw [hnone] at hi
    cases hi
  · rw [hsome] at hi
    cases hi
    exact hfound.lt

theorem get?_eq (live : Liveness) (h : t.Sound) (key : Identity) : get? t live key = some (t.get? live key) := by
  obtain ⟨looks, found, out, u, -, hstrict, hsearch, -, hlt⟩ := search_eq live h key
  unfold get? Table.get?
  simp only [hstrict, hsearch, Option.bind_eq_bind, Option.bind_some, Option.getD_some]
  cases found with
  | none => rfl
  | some i => simp [read_entryAt (hlt i rfl)]

/-! ## Scanning -/

theorem look_eq (live : Liveness) {s : Scan ν} (h : s.table.Sound) (i n : Nat) :
    look live i n s = some (s.look live i n) := by
  have hj : s.table.next i < s.table.capacity := Cyclic.next_lt (Nat.zero_lt_of_lt h.room)
  unfold look Scan.look
  simp only [read_entryAt hj, Option.bind_eq_bind, Option.bind_some]
  by_cases hst : s.table.staleAt live (s.table.next i) = true
  · obtain ⟨e, he, hs⟩ := staleAt_iff.1 hst
    simp [hst, he, hs, expunge_eq live h he]
  · have hany : ¬ (s.table.entryAt (s.table.next i)).any (·.stale live) = true := hst
    rw [if_neg hany, if_neg hst]

theorem go_of_limited {n : Nat} {s r : Scan ν} (h : s.table.Sound) (hgo : Scan.go live fuel i n s = some r) :
    go live i n s = some r := by
  induction fuel generalizing i n s with
  | zero => cases hgo
  | succ fuel ih =>
    simp only [Scan.go] at hgo
    have hsound : (s.look live i n).2.2.table.Sound := by
      rcases Scan.look_cases live h i n with ⟨htable, -⟩ | ⟨⟨e, out, hc⟩, -⟩
      · rw [htable]
        exact h
      · exact hc.sound
    by_cases hend : (s.look live i n).2.1 = 0
    · rw [if_pos hend] at hgo
      rw [← Option.some.inj hgo]
      exact loop_end (by simp [look_eq live h, hend])
    · rw [if_neg hend] at hgo
      refine (loop_on ?_).trans (ih hsound hgo)
      simp [look_eq live h, hend]

theorem scan_eq (live : Liveness) (h : t.Sound) (i n : Nat) : scan t live i n = some (t.scan live i n) := by
  have hgo := go_of_limited h (h.go_scan live i n)
  simp only [scan, hgo, Option.bind_eq_bind, Option.bind_some]
  rw [if_pos (h.scan_looks live i n)]

theorem clean_eq (live : Liveness) (h : t.Sound) (he : t.entryAt i = some e) :
    clean t live i = some (t.clean live i) := by
  have hexp := h.expunge live he
  simp only [clean, Table.clean, expunge_eq live h he, scan_eq live hexp.sound, Option.bind_eq_bind,
    Option.bind_some]

/-! ## Writing to single slots -/

theorem overwrite_eq (he : t.entryAt i = some e) (value : ν) :
    overwrite t i value = some (t.overwrite i value) := by
  have hi := lt_of_entryAt he
  rw [Table.overwrite_eq he]
  simp only [overwrite, read_entryAt hi, he, write_eq hi, Option.bind_eq_bind, Option.bind_some]

theorem exchange_eq (hi : i < t.capacity) (hj : j < t.capacity) : exchange t i j = some (t.exchange i j) := by
  have hwrite : write (t.slots.put i (t.entryAt j)) j (t.entryAt i) =
      some ((t.slots.put i (t.entryAt j)).put j (t.entryAt i)) := by
    refine write_eq ?_ _
    rw [Slots.size_put]
    exact hj
  simp only [exchange, read_entryAt hi, read_entryAt hj, write_eq hi, hwrite, Option.bind_eq_bind, Option.bind_some]
  rfl

theorem replace_eq (hi : i < t.capacity) (e : Entry ν) : replace t i e = some (t.replace i e) := by
  simp only [replace, read_entryAt hi, write_eq hi, Option.bind_eq_bind, Option.bind_some]
  rfl

/-! ## Taking over a stale slot -/

theorem earliestStale_of_limited {best b : Nat} (hi : i < t.capacity)
    (h : t.earliestStale live fuel i best = some b) : earliestStale t live i best = some b := by
  induction fuel generalizing i best with
  | zero => cases h
  | succ fuel ih =>
    unfold Table.earliestStale at h
    cases he : t.entryAt i with
    | none =>
      rw [he] at h
      rw [← Option.some.inj h]
      exact loop_end (by simp [backOn, read_entryAt hi, he])
    | some e =>
      rw [he] at h
      refine (loop_on ?_).trans (ih (i := t.prev i) (Cyclic.prev_lt hi) h)
      simp [backOn, read_entryAt hi, he]

/-- The walk backwards from an occupied slot comes to a free one. -/
theorem earliestStale_eq (live : Liveness) (h : t.Sound) (hi : i < t.capacity) (best : Nat) :
    ∃ b, t.earliestStale live t.capacity (t.prev i) best = some b ∧
      earliestStale t live (t.prev i) best = some b := by
  obtain ⟨z, hz, hfree⟩ := h.exists_free
  have hp : t.prev i < t.capacity := Cyclic.prev_lt hi
  have hfuel : (t.entryAt (t.prev i)).isSome → rank t.capacity z (t.prev i) + 1 < t.capacity := by
    intro hocc
    have hprev : rank t.capacity z (t.prev i) + 1 = rank t.capacity z i := Slots.rank_prev hz hfree hi hocc
    rw [hprev]
    exact Cyclic.rank_lt z hi
  rcases earliestStale_spec live hz hfree hp hfuel (Nat.zero_lt_of_lt hi) best with ⟨hb, -⟩ | ⟨b, hb, -⟩
  · exact ⟨best, hb, earliestStale_of_limited hp hb⟩
  · exact ⟨b, hb, earliestStale_of_limited hp hb⟩

theorem anchor_eq (live : Liveness) (h : t.Sound) (key : Identity) (hi : i < t.capacity) :
    anchor t live key i = some (t.anchor live key i) := by
  obtain ⟨b, hb, hstrict⟩ := earliestStale_eq live h hi i
  obtain ⟨j, hseek, hprobe, hf⟩ := probe_eq h
    (p := (·.all fun e => e.belongs live key || e.stale live)) rfl (next_lt hi)
  unfold anchor Table.anchor
  simp only [hstrict, hb, hprobe, hseek, read_entryAt hf.lt, Option.bind_eq_bind, Option.bind_some, Option.getD_some]
  split
  · rfl
  · rfl

theorem takeOver_eq (h : t.WellFormed) (hlive : live key = true) (he : t.entryAt i = some e)
    (hs : e.stale live = true) (hp : t.Passed live key i) (value : ν) :
    takeOver t live key value i = some (t.takeOver live key value i) := by
  have hi := lt_of_entryAt he
  obtain ⟨j, hseek, hprobe, hf⟩ := probe_eq h.toSound (p := (·.all (·.belongs live key))) rfl (next_lt hi)
  unfold takeOver Table.takeOver
  simp only [anchor_eq live h.toSound key hi, hprobe, hseek, read_entryAt hf.lt, Option.bind_eq_bind,
    Option.bind_some, Option.filter_some]
  cases hj : t.entryAt j with
  | none =>
    have habsent := hp.absent_beyond h hlive he hs hf hj
    have hw := h.written_replace he hs hp habsent value
    simp only [Option.isSome_none, Bool.false_eq_true, if_false, replace_eq hi, Option.bind_some]
    split
    · rfl
    · rename_i hni
      obtain ⟨g, hg, -⟩ := staleAt_iff.1 (h.staleAt_anchor_replace hi habsent hni value)
      exact clean_eq live hw.sound hg
  | some f =>
    have hb := hf.sat
    simp only [hj, Option.all_some] at hb
    have hw := h.written_moved hlive he hs hp hf hj (Entry.belongs_iff.1 hb).1 value
    obtain ⟨g, hg, -⟩ := staleAt_iff.1 (h.staleAt_anchor_moved he hs hf hj hb value)
    have hexchange := exchange_eq (t := t.overwrite j value) (i := j) (j := i) (by simpa using hf.lt) (by simpa using hi)
    simp only [Option.isSome_some, if_true, overwrite_eq hj, hexchange, Option.bind_some]
    exact clean_eq live hw.sound hg

/-! ## Making room -/

theorem grow_eq (live : Liveness) (h : t.Sound) : grow t live = some (t.grow live) := by
  have hlen := h.len_eq
  have hroom := h.room
  refine foldlM_resettle live _ t.entries ?_
  show (empty (2 * t.capacity) : Table ν).entries.length + t.entries.length < (empty (2 * t.capacity) : Table ν).capacity
  rw [entries_empty, capacity_empty]
  simp only [List.length_nil]
  omega

theorem makeRoom_eq (live : Liveness) (h : t.Sound) : makeRoom t live = some (t.makeRoom live) := by
  obtain ⟨out, hc, -⟩ := h.sweep live
  unfold makeRoom Table.makeRoom
  simp only [sweep_eq live h, grow_eq live hc.sound, Option.bind_eq_bind, Option.bind_some]
  split
  · rfl
  · rfl

/-! ## Insertion -/

theorem fill_eq (h : t.WellFormed) (live : Liveness) (hi : i < t.capacity) (hfree : t.entryAt i = none)
    (hp : t.Passed live key i) (value : ν) :
    fill t live (.of key value) i = some (t.fill live (.of key value) i) := by
  have hw := h.written_occupy hi hfree hp value
  obtain ⟨out, hc, -⟩ := hw.sound.scan live i (t.occupy i (.of key value)).len
  have hscan := scan_eq live hw.sound i (t.occupy i (.of key value)).len
  have hroom := makeRoom_eq live hc.sound
  rw [Table.fill_eq]
  unfold occupy at hscan hroom ⊢
  simp only [fill, write_eq hi, hscan, hroom, Option.bind_eq_bind, Option.bind_some]
  split
  · rfl
  · rfl

theorem insert_eq (h : t.WellFormed) (hlive : live key = true) (value : ν) :
    insert t live key value = some (t.insert live key value) := by
  obtain ⟨i, hseek, hi, hp, hkind⟩ := h.toSound.seek_insert live key
  have hprobe : probe (·.all fun e => e.belongs live key || e.stale live) t.slots (t.slots.home key.hash) = some i :=
    probe_of_seek (h.toSound.home_lt key.hash) hseek
  unfold insert Table.insert
  simp only [hprobe, hseek, read_entryAt hi, Option.bind_eq_bind, Option.bind_some]
  cases he : t.entryAt i with
  | none => exact fill_eq h live hi he hp value
  | some e =>
    by_cases hb : e.belongs live key = true
    · simp [hb, overwrite_eq he]
    · simp [hb, takeOver_eq h hlive he ((hkind e he).resolve_left hb) hp]

/-! ## A child's table -/

/-- The heirs of a list of entries are added one after another, if there is room for all of the entries. -/
theorem foldlM_bequeath (live : Liveness) (childValue : Identity → ν → Option ν) (child : Table ν)
    (es : List (Entry ν)) (hfit : child.entries.length + es.length < child.capacity) :
    es.foldlM (bequeath live childValue) child = some (child.endow (heirs live childValue es)) := by
  induction es generalizing child with
  | nil => rfl
  | cons e rest ih =>
    simp only [List.length_cons] at hfit
    rw [List.foldlM_cons]
    cases hl : live e.key with
    | false =>
      simp only [bequeath, heirs, hl, List.filterMap_cons, Bool.false_eq_true, if_false, Option.bind_eq_bind,
        Option.bind_some]
      exact ih child (by omega)
    | true =>
      cases hv : childValue e.key e.value with
      | none =>
        simp only [bequeath, heirs, hl, hv, List.filterMap_cons, if_true, Option.map_none, Option.bind_eq_bind,
          Option.bind_some]
        exact ih child (by omega)
      | some value =>
        obtain ⟨z, hz, hfree⟩ := Slots.exists_free (s := child.slots) (by
          have hle : child.slots.entries.length + (rest.length + 1) < child.slots.size := hfit
          omega)
        have hgrown := (Slots.entries_place hz hfree { e with value }).length_eq
        simp only [List.length_cons] at hgrown
        have hinherit : inherit child e value = some (child.inherit e value) := by
          simp only [inherit, place_eq hz hfree, Option.bind_eq_bind, Option.bind_some]
          rfl
        have hrest := ih (child.inherit e value) (by
          have hsize : (child.inherit e value).capacity = child.capacity := Slots.size_place ..
          have hent : (child.inherit e value).entries.length = child.entries.length + 1 := hgrown
          omega)
        rw [endow_cons] at hrest
        simp only [bequeath, heirs, hl, hv, List.filterMap_cons, if_true, Option.map_some, hinherit,
          Option.bind_eq_bind, Option.bind_some]
        exact hrest

theorem fork_eq (h : t.Sound) (live : Liveness) (childValue : Identity → ν → Option ν) :
    fork t live childValue = some (t.fork live childValue) := by
  have hlen := h.len_eq
  have hroom := h.room
  rw [fork_eq_endow]
  refine foldlM_bequeath live childValue _ t.entries ?_
  rw [entries_empty, capacity_empty]
  simp only [List.length_nil]
  omega

end PerThread.Table.Strict
