import PerThread.Proofs.Table.Sound

/-!
# Writing to single slots

Overwriting a value, taking over a slot, filling a free one and exchanging two are the writes an
insertion is made of. Each comes with its traffic and with what it needs in order to keep a table sound.
-/

namespace PerThread.Table

variable {ν : Type} {live : Liveness} {t u : Table ν}

/-- A table is sound after its entries changed if the ways lead to all of them, and they are counted, fit
and differ. -/
theorem Sound.of_turnover {out inn : List (Entry ν)} (h : t.Sound) (hto : t.Turnover out inn u)
    (hled : u.slots.Led) (hlen : u.len + out.length = t.len + inn.length) (hroom : u.len < u.capacity)
    (hn : (u.entries.map Entry.key).Nodup) : u.Sound := by
  have := hto.length_eq
  have := h.len_eq
  exact ⟨by omega, hroom, hled, hn⟩

/-! ## Overwriting -/

section
variable {i : Nat} {e : Entry ν}

theorem overwrite_eq (h : t.entryAt i = some e) (value : ν) :
    t.overwrite i value =
      { t with slots := t.slots.put i (some { e with value }), reclaimed := t.reclaimed ++ [e.value] } := by
  unfold overwrite
  rw [h]

theorem entryAt_overwrite (h : t.entryAt i = some e) (value : ν) (x : Nat) :
    (t.overwrite i value).entryAt x = if i = x then some { e with value } else t.entryAt x := by
  rw [overwrite_eq h]
  exact Slots.entryAt_put (lt_of_entryAt h) _ x

theorem turnover_overwrite (h : t.entryAt i = some e) (value : ν) :
    t.Turnover [e] [{ e with value }] (t.overwrite i value) := by
  have hput := Slots.entries_put (lt_of_entryAt h) (some { e with value })
  rw [show t.slots.entryAt i = some e from h] at hput
  rw [overwrite_eq h]
  exact ⟨List.perm_append_comm.trans (hput.symm.trans List.perm_append_comm), rfl⟩

theorem Sound.overwrite (hs : t.Sound) (h : t.entryAt i = some e) (value : ν) :
    (t.overwrite i value).Sound := by
  have hto := turnover_overwrite h value
  have hi := lt_of_entryAt h
  refine hs.of_turnover hto ?_ (by simp [overwrite_eq h]) ?_ ?_
  · rw [overwrite_eq h]
    exact hs.led.put hi ((hs.led i e h).mono (Slots.size_put ..) fun x hx =>
      Slots.entryAt_put_isSome hi _ hx)
  · rw [capacity_overwrite]
    simpa [overwrite_eq h] using hs.room
  · -- the identities are the same as before
    have hkeys := hto.entries.map Entry.key
    simp only [List.map_append, List.map_cons, List.map_nil] at hkeys
    have hperm := (List.perm_append_left_iff [e.key]).1 (List.perm_append_comm.trans hkeys)
    exact hperm.nodup_iff.1 hs.nodup

end

/-! ## New entries -/

section
variable {i : Nat} {e old : Entry ν}

theorem entryAt_replace (hi : i < t.capacity) (e : Entry ν) (x : Nat) :
    (t.replace i e).entryAt x = if i = x then some e else t.entryAt x :=
  Slots.entryAt_put hi (some e) x

theorem turnover_replace (h : t.entryAt i = some old) (e : Entry ν) :
    t.Turnover [old] [e] (t.replace i e) := by
  have hput := Slots.entries_put (lt_of_entryAt h) (some e)
  rw [show t.slots.entryAt i = some old from h] at hput
  refine ⟨List.perm_append_comm.trans (hput.symm.trans List.perm_append_comm), ?_⟩
  simp [replace, h]

/-- The identities differ if the new one is really new. -/
theorem nodup_append_of_absent (hn : (t.entries.map Entry.key).Nodup) (hnew : ∀ f ∈ t.entries, f.key ≠ e.key) :
    ((t.entries ++ [e]).map Entry.key).Nodup := by
  rw [List.map_append, List.nodup_append]
  refine ⟨hn, by simp, fun a ha b hb hab => ?_⟩
  obtain ⟨f, hf, rfl⟩ := List.mem_map.1 ha
  simp only [List.map_cons, List.map_nil, List.mem_singleton] at hb
  exact hnew f hf (hab.trans hb)

/-- A slot may be taken over by a new identity if the way from its home leads there. -/
theorem Sound.replace (hs : t.Sound) (h : t.entryAt i = some old) (hnew : ∀ f ∈ t.entries, f.key ≠ e.key)
    (hlead : t.slots.Leads e.hash i) : (t.replace i e).Sound := by
  have hto := turnover_replace h e
  have hi := lt_of_entryAt h
  refine hs.of_turnover hto ?_ rfl (by simpa [Table.replace, capacity] using hs.room)
    (hto.nodup (nodup_append_of_absent hs.nodup hnew))
  exact hs.led.put hi (hlead.mono (Slots.size_put ..) fun x hx => Slots.entryAt_put_isSome hi _ hx)

def occupy (t : Table ν) (i : Nat) (e : Entry ν) : Table ν :=
  { t with slots := t.slots.put i (some e), len := t.len + 1 }

@[simp] theorem capacity_occupy (t : Table ν) (i : Nat) (e : Entry ν) :
    (t.occupy i e).capacity = t.capacity := by
  simp [occupy, capacity]

theorem turnover_occupy (hi : i < t.capacity) (h : t.entryAt i = none) (e : Entry ν) :
    t.Turnover [] [e] (t.occupy i e) :=
  ⟨List.perm_append_comm.trans (Slots.entries_put_some hi h e).symm, by simp [occupy]⟩

/-- A free slot may take a new identity if the way from its home leads there and another slot is free. -/
theorem Sound.occupy (hs : t.Sound) (hi : i < t.capacity) (h : t.entryAt i = none)
    (hroom : t.len + 1 < t.capacity) (hnew : ∀ f ∈ t.entries, f.key ≠ e.key)
    (hlead : (t.occupy i e).slots.Leads e.hash i) : (t.occupy i e).Sound := by
  have hto := turnover_occupy hi h e
  refine hs.of_turnover hto (hs.led.put hi hlead) rfl ?_ (hto.nodup (nodup_append_of_absent hs.nodup hnew))
  rw [capacity_occupy]
  exact hroom

end

/-! ## Exchanging -/

section
variable {i j : Nat} {e f : Entry ν}

theorem entryAt_exchange (hi : t.entryAt i = some e) (hj : t.entryAt j = some f) (x : Nat) :
    (t.exchange i j).entryAt x = if j = x then some e else if i = x then some f else t.entryAt x := by
  have hput := Slots.entryAt_put (s := t.slots.put i (t.entryAt j)) (i := j)
    (by rw [Slots.size_put]; exact lt_of_entryAt hj) (t.entryAt i) x
  rw [Slots.entryAt_put (lt_of_entryAt hi)] at hput
  rw [← hi, ← hj]
  exact hput

theorem turnover_exchange (hi : t.entryAt i = some e) (hj : t.entryAt j = some f) (hij : i ≠ j) :
    t.Turnover [] [] (t.exchange i j) := by
  classical
  refine ⟨?_, by simp [exchange]⟩
  have hone := Slots.entries_put (lt_of_entryAt hi) (t.entryAt j)
  have htwo := Slots.entries_put (s := t.slots.put i (t.entryAt j)) (i := j)
    (by rw [Slots.size_put]; exact lt_of_entryAt hj) (t.entryAt i)
  rw [Slots.entryAt_put (lt_of_entryAt hi), if_neg hij] at htwo
  refine List.perm_iff_count.2 fun a => ?_
  have c₁ := hone.count_eq a
  have c₂ := htwo.count_eq a
  simp only [List.count_append, entryAt, entries, exchange] at c₁ c₂ ⊢
  omega

/-- Two entries may change places if the ways from their homes lead there. -/
theorem Sound.exchange (hs : t.Sound) (hi : t.entryAt i = some e) (hj : t.entryAt j = some f)
    (hij : i ≠ j) (hle : t.slots.Leads e.hash j) (hlf : t.slots.Leads f.hash i) :
    (t.exchange i j).Sound := by
  have hto := turnover_exchange hi hj hij
  have hat := entryAt_exchange hi hj
  have hmono {hash : UInt32} {x : Nat} (h : t.slots.Leads hash x) : (t.exchange i j).slots.Leads hash x := by
    refine h.mono (capacity_exchange t i j) fun y hy => ?_
    rw [show (t.exchange i j).slots.entryAt y = _ from hat y]
    split
    · rfl
    · split
      · rfl
      · exact hy
  refine hs.of_turnover hto (fun x g hx => ?_) rfl (by rw [capacity_exchange]; exact hs.room)
    (hto.nodup (by simpa using hs.nodup))
  rw [show (t.exchange i j).slots.entryAt x = _ from hat x] at hx
  split at hx
  · rename_i hjx
    cases hx
    exact hjx ▸ hmono hle
  · split at hx
    · rename_i hix
      cases hx
      exact hix ▸ hmono hlf
    · exact hmono (hs.led x g hx)

end

end PerThread.Table
