import PerThread.Proofs.History.Effect

/-!
# Where the values are

Every value that was passed in is in a slot, among those given up, or has been taken: none is lost and none
is there twice. What an operation gives up is what it had to: the values of the stale entries that it
dropped, and the one that it wrote over or removed.

All of it comes from the traffic of entries. Those that left are stale or of the identity that was written;
the stale ones are told by their identities, which the table does not hold any more, and the others are
what the table held for that identity before.
-/

namespace PerThread

variable {ν : Type} {live : Liveness} {t u : Table ν} {op : Op ν}

namespace Table

/-- The stale entries of `t` whose identities `u` does not hold. -/
def dropped (live : Liveness) (t u : Table ν) : List (Entry ν) :=
  t.entries.filter fun e => (u.valueOf? e.key).isNone && e.stale live

/-- An identity has one entry at most. -/
theorem filter_key (hn : (t.entries.map Entry.key).Nodup) {e : Entry ν} (he : e ∈ t.entries) :
    t.entries.filter (·.key == e.key) = [e] := by
  refine List.perm_singleton.1 ((List.perm_ext_iff_of_nodup ?_ (List.nodup_singleton e)).2 fun f => ?_)
  · exact (List.Nodup.of_map _ hn).filter _
  · rw [List.mem_filter, List.mem_singleton, beq_iff_eq]
    constructor
    · rintro ⟨hf, hfk⟩
      exact List.inj_on_of_nodup_map hn hf he hfk
    · rintro rfl
      exact ⟨he, rfl⟩

theorem values_of_key (hn : (t.entries.map Entry.key).Nodup) (key : Identity) :
    (t.entries.filter (·.key == key)).map Entry.value = (t.valueOf? key).toList := by
  unfold valueOf?
  cases hfind : t.entries.find? (·.key == key) with
  | none =>
    rw [List.filter_eq_nil_iff.2 (List.find?_eq_none.1 hfind)]
    rfl
  | some e =>
    have hkey : e.key = key := by simpa using List.find?_some hfind
    rw [← hkey, filter_key hn (List.mem_of_find?_eq_some hfind)]
    rfl

end Table

namespace Op

/-- The value that the operation puts something else in the place of, or removes. -/
def displaced (t : Table ν) : Op ν → List ν
  | .set key _ | .remove key => (t.valueOf? key).toList
  | _ => []

theorem values_arrivals (op : Op ν) : op.arrivals.map Entry.value = op.passed?.toList := by
  cases op <;> rfl

theorem writes_of_mem_arrivals {e : Entry ν} (he : e ∈ op.arrivals) : op.writes e.key = true := by
  cases op with
  | set key value =>
    rw [List.mem_singleton.1 he]
    exact writes_set.2 rfl
  | _ => cases he

theorem values_written (hn : (t.entries.map Entry.key).Nodup) (op : Op ν) :
    (t.entries.filter fun e => op.writes e.key).map Entry.value = op.displaced t := by
  have hwritten : ∀ key, (∀ k, op.writes k = true ↔ key = k) →
      (t.entries.filter fun e => op.writes e.key).map Entry.value = (t.valueOf? key).toList := by
    intro key hwrites
    rw [← Table.values_of_key hn]
    congr 1
    refine List.filter_congr fun e _ => Bool.eq_iff_iff.2 ?_
    rw [hwrites, beq_iff_eq, eq_comm]
  cases op with
  | set key value => exact hwritten key fun k => writes_set
  | remove key => exact hwritten key fun k => writes_remove
  | _ => simp [writes, write?, displaced]

namespace Effect

/-- No value is lost, and none is made. -/
theorem conserved (h : op.Effect live t u) :
    (u.values ++ u.reclaimed ++ op.handed t).Perm (t.values ++ t.reclaimed ++ op.passed?.toList) := by
  classical
  obtain ⟨out, hperm, hgone, -⟩ := h.turnover
  refine List.perm_iff_count.2 fun x => ?_
  have hvalues := (hperm.map Entry.value).count_eq x
  have hcount := congrArg (List.count x) hgone
  simp only [List.map_append, values_arrivals, List.count_append] at hvalues hcount
  simp only [Table.values, List.count_append]
  omega

/-- The stale entries that left are those that are not there any more. -/
theorem stale_out {out : List (Entry ν)} (ht : (t.entries.map Entry.key).Nodup)
    (harr : ∀ e ∈ op.arrivals, e.stale live = false)
    (hperm : (t.entries ++ op.arrivals).Perm (out ++ u.entries)) :
    (out.filter (·.stale live)).Perm (t.dropped live u) := by
  have hstale : (t.entries.filter (·.stale live)).Perm
      (out.filter (·.stale live) ++ u.entries.filter (·.stale live)) := by
    have hnone : op.arrivals.filter (·.stale live) = [] := List.filter_eq_nil_iff.2 fun e he => by
      simp [harr e he]
    have := hperm.filter (·.stale live)
    rwa [List.filter_append, List.filter_append, hnone, List.append_nil] at this
  have hkeys : ((t.entries.filter (·.stale live)).map Entry.key).Nodup :=
    (List.filter_sublist.map Entry.key).nodup ht
  have hapart := (hstale.map Entry.key).nodup_iff.1 hkeys
  rw [List.map_append, List.nodup_append] at hapart
  have hgone : ∀ e ∈ out.filter (·.stale live), (u.valueOf? e.key).isNone = true := by
    intro e he
    rw [Option.isNone_iff_eq_none, Table.valueOf?_eq_none_iff]
    intro f hf hkey
    have hfs : f.stale live = true := by
      rw [Entry.stale_eq hkey]
      exact (List.mem_filter.1 he).2
    exact hapart.2.2 e.key (List.mem_map_of_mem he) f.key
      (List.mem_map_of_mem (List.mem_filter.2 ⟨hf, hfs⟩)) hkey.symm
  have hstay : ∀ e ∈ u.entries.filter (·.stale live), ¬ (u.valueOf? e.key).isNone = true := by
    intro e he
    rw [Option.isNone_iff_eq_none, Table.valueOf?_eq_none_iff]
    exact fun hall => hall e (List.mem_filter.1 he).1 rfl
  have hfilter := hstale.filter fun e => (u.valueOf? e.key).isNone
  rw [List.filter_append, List.filter_eq_self.2 hgone, List.filter_eq_nil_iff.2 hstay, List.append_nil,
    List.filter_filter] at hfilter
  exact hfilter.symm

/-- The other entries that left are what the table held for the identity that was written. -/
theorem live_out {out : List (Entry ν)} (h : op.Effect live t u)
    (hperm : (t.entries ++ op.arrivals).Perm (out ++ u.entries)) :
    (out.filter fun e => op.writes e.key).Perm (t.entries.filter fun e => op.writes e.key) := by
  have harr : op.arrivals.filter (fun e => op.writes e.key) = op.arrivals :=
    List.filter_eq_self.2 fun e he => writes_of_mem_arrivals he
  have hu : (u.entries.filter fun e => op.writes e.key).Perm op.arrivals := by
    refine (List.perm_ext_iff_of_nodup ((List.Nodup.of_map _ h.wellFormed.nodup).filter _) ?_).2 fun e => ?_
    · cases op <;> simp [arrivals]
    · rw [List.mem_filter]
      constructor
      · rintro ⟨he, hw⟩
        exact (h.written e hw).1 he
      · intro he
        exact ⟨(h.written e (writes_of_mem_arrivals he)).2 he, writes_of_mem_arrivals he⟩
  have hfilter := hperm.filter fun e => op.writes e.key
  rw [List.filter_append, List.filter_append, harr] at hfilter
  exact ((List.perm_append_right_iff _).1 (hfilter.trans (hu.append_left _))).symm

/-- What was given up: the values of the dropped entries, and the one that was displaced. -/
theorem given_up (h : op.Effect live t u) (ht : (t.entries.map Entry.key).Nodup)
    (hop : ∀ key ∈ op.subject?, live key = true) :
    ∃ gone, op.handed t ++ u.reclaimed = t.reclaimed ++ gone ∧
      gone.Perm ((t.dropped live u).map Entry.value ++ op.displaced t) := by
  obtain ⟨out, hperm, hgone, hout⟩ := h.turnover
  have harr : ∀ e ∈ op.arrivals, e.stale live = false := fun e he => by
    simp [Entry.stale, hop e.key (key_of_mem_arrivals he)]
  have hrest : out.filter (fun e => !e.stale live) = out.filter fun e => op.writes e.key := by
    refine List.filter_congr fun e he => Bool.eq_iff_iff.2 ⟨fun hs => ?_, fun hw => ?_⟩
    · exact (hout e he).resolve_left (by simpa using hs)
    · simp [Entry.stale, hop e.key (writes_subject hw)]
  refine ⟨out.map Entry.value, hgone, ?_⟩
  rw [← values_written ht, ← List.map_append]
  refine List.Perm.map _ ((List.filter_append_perm (·.stale live) out).symm.trans ?_)
  rw [hrest]
  exact (stale_out ht harr hperm).append (h.live_out hperm)

end Effect

end Op

namespace Scene

variable {s s' : Scene ν}

/-- All values that are there: in slots, given up, or taken. -/
def held (s : Scene ν) : List ν := s.table.values ++ s.table.reclaimed ++ s.taken

theorem Coherent.held_step (h : s.Coherent) (hstep : s.step? op = some s') :
    s'.held.Perm (s.held ++ op.passed?.toList) := by
  classical
  have hcons := (h.effect hstep).conserved
  obtain ⟨-, rfl⟩ := step?_eq_some_iff.1 hstep
  refine List.perm_iff_count.2 fun x => ?_
  have hcount := hcons.count_eq x
  have htaken : (s.after op).taken = s.taken ++ op.handed s.table := rfl
  simp only [held, htaken, List.count_append] at hcount ⊢
  omega

theorem Reachable.held_perm (hs : s.Reachable) : s.held.Perm s.stored := by
  induction hs with
  | @first h key hlive value =>
    have hvalues : (Table.singleton key value).values = [value] := by
      rw [Table.values, (Table.wellFormed_singleton key value).2]
      rfl
    show ((Table.singleton key value).values ++ [] ++ []).Perm [value]
    rw [hvalues]
    exact List.Perm.refl _
  | @step s s' op hs hstep ih =>
    have hheld := hs.coherent.held_step hstep
    obtain ⟨-, rfl⟩ := step?_eq_some_iff.1 hstep
    exact hheld.trans (ih.append_right _)
  | @fork s childValue _ _ =>
    have hnone : (s.table.fork s.holders.live childValue).reclaimed = [] := by rw [Table.fork_eq]
    show ((s.table.fork s.holders.live childValue).values ++
      (s.table.fork s.holders.live childValue).reclaimed ++ []).Perm _
    rw [hnone, List.append_nil, List.append_nil]
    exact List.Perm.refl _
  | @copy s _ _ =>
    show (s.table.copy.values ++ [] ++ []).Perm s.table.copy.values
    rw [List.append_nil, List.append_nil]

theorem stored_run {ops : List (Op ν)} (hrun : s.run? ops = some s') :
    s'.stored = s.stored ++ ops.filterMap Op.passed? := by
  induction ops generalizing s with
  | nil =>
    cases hrun
    exact (List.append_nil _).symm
  | cons op rest ih =>
    obtain ⟨m, hstep, hrest⟩ := run?_cons.1 hrun
    obtain ⟨-, rfl⟩ := step?_eq_some_iff.1 hstep
    have hm : (s.after op).stored = s.stored ++ op.passed?.toList := rfl
    rw [ih hrest, hm, List.append_assoc]
    cases hop : op.passed? <;> simp [hop]

/-- An operation other than taking adds to the values given up, and to no others. -/
theorem Coherent.reclaimed_step (h : s.Coherent) (hstep : s.step? op = some s') (hop : op ≠ .take) :
    s'.taken = s.taken ∧ ∃ gone, s'.table.reclaimed = s.table.reclaimed ++ gone ∧
      gone.Perm ((s.table.dropped s.holders.live s'.table).map Entry.value ++ op.displaced s.table) := by
  have hhand : op.handed s.table = [] := by
    cases op with
    | take => exact absurd rfl hop
    | _ => rfl
  have heff := h.effect hstep
  obtain ⟨hsubject, rfl⟩ := step?_eq_some_iff.1 hstep
  obtain ⟨gone, hgone, hperm⟩ := heff.given_up h.wellFormed.nodup hsubject
  rw [hhand, List.nil_append] at hgone
  have htaken : (s.after op).taken = s.taken ++ op.handed s.table := rfl
  rw [htaken, hhand, List.append_nil]
  exact ⟨rfl, gone, hgone, hperm⟩

/-- The books balance after every run, and after every operation they show why a value was given up. -/
theorem Reachable.accounts (hs : s.Reachable) :
    (∀ ops s', s.run? ops = some s' →
      (s'.table.values ++ s'.table.reclaimed ++ s'.taken).Perm (s.stored ++ ops.filterMap Op.passed?)) ∧
    ∀ op s', s.step? op = some s' →
      (op = .take → s'.table.reclaimed = [] ∧ s'.taken = s.taken ++ s.table.reclaimed) ∧
      (op ≠ .take → s'.taken = s.taken ∧ ∃ gone, s'.table.reclaimed = s.table.reclaimed ++ gone ∧
        gone.Perm ((s.table.dropped s.holders.live s'.table).map Entry.value ++ op.displaced s.table)) ∧
      ∀ e ∈ s.table.entries, s.holders.live e.key = true → (∀ w, op ≠ .set e.key w) →
        op ≠ .remove e.key → e ∈ s'.table.entries := by
  refine ⟨fun ops s' hrun => ?_, fun op s' hstep => ⟨?_, hs.coherent.reclaimed_step hstep, ?_⟩⟩
  · rw [← stored_run hrun]
    exact (hs.run ops hrun).held_perm
  · rintro rfl
    obtain ⟨-, rfl⟩ := step?_eq_some_iff.1 hstep
    exact ⟨rfl, rfl⟩
  · intro e he hlive hset hremove
    have hw : op.writes e.key = false := Op.write?_eq_none_iff.1 (Op.write?_eq_none.2 ⟨hset, hremove⟩)
    exact ((hs.coherent.effect hstep).mem_iff (by simp [Entry.stale, hlive]) hw).2 he

/-- One store gives up a value that it writes over and one that it finds stale. -/
theorem accounts_of_take_over :
    ∃ s s' : Scene Nat, s.Reachable ∧ s.step? (.set ⟨1, 7⟩ 22) = some s' ∧
      s'.table.values = [22] ∧ s'.table.reclaimed = [21, 20] ∧
      (s'.table.values ++ s'.table.reclaimed ++ s'.taken).Perm [20, 21, 22] := by
  have hrun := (reachable_first 7 20).run [.make 7, .set ⟨1, 7⟩ 21, .forget ⟨0, 7⟩] rfl
  obtain ⟨hbalance, -⟩ := hrun.accounts
  exact ⟨_, _, hrun, rfl, rfl, rfl, hbalance [.set ⟨1, 7⟩ 22] _ rfl⟩

end Scene

end PerThread
