import Mathlib.Data.List.Induction
import PerThread.Proofs.History.Effect
import PerThread.Proofs.Spread
import PerThread.Proofs.Table.Homed

/-!
# Identities stored in the order of creation

Identities made one after another have codes that spread over every table whose capacity is a power of two. Suppose they
are stored for the first time in the order of their creation, and none of them is removed or let go of. Then at every
moment the table holds the first `m` of them, and has more than `m` slots, since it grows before it is full. So the next
identity finds its home free, and when the table doubles there is a home for each: no entry ever stands anywhere else
(`Row`).
-/

namespace PerThread

open HashCode (nth)

variable {ν : Type} {live : Liveness} {start : UInt32} {n m k i : Nat} {keys : Nat → Identity} {t u : Table ν}
  {key : Identity} {op : Op ν} {ops : List (Op ν)} {value : ν}

/-! ## Codes in a row -/

/-- The first `m` identities. -/
def leading (keys : Nat → Identity) (m : Nat) : Set Identity := {key | ∃ i < m, keys i = key}

/-- The first `n` identities are held, and have the codes that were drawn one after another from a counter at `start`. -/
structure Drawn (live : Liveness) (start : UInt32) (n : Nat) (keys : Nat → Identity) : Prop where
  le : n ≤ 2 ^ 32
  held : ∀ i < n, live (keys i) = true
  hash_eq : ∀ i < n, (keys i).hash = nth start i

namespace Drawn

theorem inj (h : Drawn live start n keys) {i j : Nat} (hi : i < n) (hj : j < n) (heq : keys i = keys j) : i = j := by
  have hle := h.le
  have hhash : nth start i = nth start j := by rw [← h.hash_eq i hi, ← h.hash_eq j hj, heq]
  exact HashCode.nth_inj (by omega) (by omega) hhash

/-- A ring with a slot for each of the first identities has a home for each of them. -/
theorem apart (h : Drawn live start n keys) (hm : m ≤ n) (hk : m ≤ 2 ^ k) : Apart (2 ^ k) (leading keys m) := by
  have hle := h.le
  rintro - ⟨i, hi, rfl⟩ - ⟨j, hj, rfl⟩ hhome
  dsimp only at hhome
  rw [h.hash_eq i (by omega), h.hash_eq j (by omega)] at hhome
  rw [HashCode.nth_mod_inj (by omega) (by omega) (by omega) (by omega) hhome]

end Drawn

/-! ## Tables that hold the first identities -/

/-- The table holds the first `m` identities and no others, each of them in its home. -/
structure Row (keys : Nat → Identity) (m : Nat) (t : Table ν) : Prop where
  wellFormed : t.WellFormed
  stored : ∀ key, (∃ e ∈ t.entries, e.key = key) ↔ key ∈ leading keys m
  homed : t.slots.Homed

namespace Row

theorem key_mem (h : Row keys m t) : ∀ e ∈ t.entries, e.key ∈ leading keys m :=
  fun e he => (h.stored e.key).1 ⟨e, he, rfl⟩

theorem fresh (h : Row keys m t) (hd : Drawn live start n keys) (hm : m ≤ n) : ∀ e ∈ t.entries, e.stale live = false := by
  intro e he
  obtain ⟨i, hi, hkey⟩ := h.key_mem e he
  have hheld := hd.held i (by omega)
  simp [Entry.stale, ← hkey, hheld]

/-- There are as many entries as identities. -/
theorem le_len (h : Row keys m t) (hd : Drawn live start n keys) (hm : m ≤ n) : m ≤ t.len := by
  have hnodup : ((List.range m).map keys).Nodup := by
    refine List.Nodup.map_on (fun i hi j hj heq => ?_) List.nodup_range
    rw [List.mem_range] at hi hj
    exact hd.inj (by omega) (by omega) heq
  have hsub : (List.range m).map keys ⊆ t.entries.map Entry.key := by
    intro key hkey
    obtain ⟨i, hi, rfl⟩ := List.mem_map.1 hkey
    obtain ⟨e, he, hek⟩ := (h.stored (keys i)).2 ⟨i, List.mem_range.1 hi, rfl⟩
    exact List.mem_map.2 ⟨e, he, hek⟩
  have hle := (List.subperm_of_subset hnodup hsub).length_le
  rw [List.length_map, List.length_range, List.length_map, ← h.wellFormed.len_eq] at hle
  exact hle

theorem singleton (keys : Nat → Identity) (value : ν) : Row keys 1 (Table.singleton (keys 0) value) := by
  obtain ⟨hwf, hent⟩ := Table.wellFormed_singleton (keys 0) value
  refine ⟨hwf, fun key => ?_, (Slots.homed_free _).put_home ?_ (.of (keys 0) value)⟩
  · rw [hent]
    simp [leading, Entry.of, eq_comm]
  · rw [Slots.size_free]
    decide

/-- A lookup has nothing to drop, and leaves everything in place. -/
theorem get? (h : Row keys m t) (hd : Drawn live start n keys) (hm : m ≤ n) (hlive : live key = true) :
    Row keys m (t.get? live key).2 := by
  obtain ⟨-, -, out, hc, -⟩ := h.wellFormed.get? hlive
  refine ⟨h.wellFormed.of_cleaned hc, fun other => ?_, hc.homed h.homed⟩
  rw [← h.stored other]
  constructor
  · rintro ⟨e, he, hkey⟩
    exact ⟨e, hc.mem_of_mem he, hkey⟩
  · rintro ⟨e, he, hkey⟩
    exact ⟨e, (hc.mem_iff (h.fresh hd hm e he)).2 he, hkey⟩

/-- A store of one of the first identities, or of the next one. -/
theorem insert (h : Row keys m t) (hd : Drawn live start n keys) (hm : m ≤ n) (hi : i ≤ m) (hin : i < n) (value : ν) :
    Row keys (max m (i + 1)) (t.insert live (keys i) value).1 := by
  have hlive := hd.held i hin
  have heff := Op.effect_set h.wellFormed hlive value
  have hsub : ∀ {key}, key ∈ leading keys m → key ∈ leading keys (max m (i + 1)) := by
    rintro key ⟨j, hj, rfl⟩
    exact ⟨j, by omega, rfl⟩
  have hself : keys i ∈ leading keys (max m (i + 1)) := ⟨i, by omega, rfl⟩
  refine ⟨heff.wellFormed, fun key => ⟨?_, ?_⟩, ?_⟩
  · rintro ⟨e, he, rfl⟩
    rcases heff.mem_of_mem he with hold | hnew
    · exact hsub (h.key_mem e hold)
    · rw [List.mem_singleton.1 hnew]
      exact hself
  · rintro ⟨j, hj, rfl⟩
    by_cases hji : keys j = keys i
    · exact ⟨.of (keys i) value, (heff.written _ (Op.writes_set.2 rfl)).2 (List.mem_singleton_self _), hji.symm⟩
    · have hjm : j < m := by
        have hne : j ≠ i := fun heq => hji (by rw [heq])
        omega
      obtain ⟨e, he, hkey⟩ := (h.stored (keys j)).2 ⟨j, hjm, rfl⟩
      refine ⟨e, (heff.mem_iff (h.fresh hd hm e he) ?_).2 he, hkey⟩
      rw [Bool.eq_false_iff]
      exact fun hw => hji (by rw [← hkey, Op.writes_set.1 hw])
  · -- the table has a slot for each identity, the new one included
    have hlen := h.le_len hd hm
    have hroom := h.wellFormed.room
    obtain ⟨k, hk⟩ := h.wellFormed.power
    have hnow : Apart t.capacity (leading keys (max m (i + 1))) := by
      rw [hk] at hroom ⊢
      exact hd.apart (by omega) (by omega)
    have hdoubled : Apart (2 * t.capacity) (leading keys (max m (i + 1))) := by
      rw [hk, ← Nat.pow_succ']
      rw [hk] at hroom
      exact hd.apart (by omega) (by rw [Nat.pow_succ]; omega)
    exact h.wellFormed.homed_insert h.homed hlive (h.fresh hd hm) (fun e he => hsub (h.key_mem e he)) hself hnow
      hdoubled value

end Row

/-! ## Histories -/

/-- After `earlier`, the operation `op` is a lookup of an identity that is held, or a store of one of the first `n`
identities, the one before which has been stored. -/
def HasTurn (live : Liveness) (keys : Nat → Identity) (n : Nat) (earlier : List (Op ν)) (op : Op ν) : Prop :=
  (∃ key, live key = true ∧ op = .get key) ∨
  ∃ i < n, ∃ value, op = .set (keys i) value ∧ ∀ j, i = j + 1 → ∃ w, .set (keys j) w ∈ earlier

/-- There are lookups and stores only, and each identity is stored for the first time after the one before it. -/
def InTurn (live : Liveness) (keys : Nat → Identity) (n : Nat) (history : List (Op ν)) : Prop :=
  ∀ earlier op later, history = earlier ++ op :: later → HasTurn live keys n earlier op

theorem inTurn_concat : InTurn live keys n (ops ++ [op]) ↔ InTurn live keys n ops ∧ HasTurn live keys n ops op := by
  constructor
  · intro h
    refine ⟨fun earlier o later heq => h earlier o (later ++ [op]) ?_, h ops op [] rfl⟩
    rw [heq, List.append_assoc, List.cons_append]
  · rintro ⟨hops, hop⟩ earlier o later heq
    rcases List.eq_nil_or_concat later with rfl | ⟨rest, x, rfl⟩
    · obtain ⟨rfl, hx⟩ := List.append_inj' heq rfl
      cases hx
      exact hop
    · rw [List.concat_eq_append, ← List.cons_append, ← List.append_assoc] at heq
      exact hops earlier o rest (List.append_inj' heq rfl).1

/-- One store after another is in turn. -/
theorem inTurn_range (values : Nat → ν) (hm : m ≤ n) :
    InTurn live keys n ((List.range m).map fun i => .set (keys i) (values i)) := by
  induction m with
  | zero =>
    intro earlier op later heq
    cases earlier <;> cases heq
  | succ m ih =>
    rw [List.range_succ, List.map_append]
    refine inTurn_concat.2 ⟨ih (by omega), Or.inr ⟨m, by omega, values m, rfl, ?_⟩⟩
    rintro j rfl
    exact ⟨values j, List.mem_map.2 ⟨j, List.mem_range.2 (Nat.lt_succ_self j), rfl⟩⟩

namespace Scene

variable {h : Holders} {s : Scene ν} {v₀ : ν}

theorem run?_concat : s.run? (ops ++ [op]) = (s.run? ops).bind (·.step? op) := by
  unfold run?
  rw [List.foldlM_append]
  simp

/-- After `history` the first `m` identities are in the table and no others, and those that were stored are among
them. -/
structure InRow (h : Holders) (keys : Nat → Identity) (n : Nat) (history : List (Op ν)) (m : Nat) (s : Scene ν) :
    Prop where
  holders_eq : s.holders = h
  le : m ≤ n
  row : Row keys m s.table
  stored : ∀ i < n, ∀ w, .set (keys i) w ∈ history → i < m

namespace InRow

theorem first (hd : Drawn h.live start n keys) (hn : 0 < n) (v₀ : ν) :
    (first h (keys 0) v₀).InRow h keys n [.set (keys 0) v₀] 1 := by
  refine ⟨rfl, hn, Row.singleton keys v₀, fun i hi w hmem => ?_⟩
  have hkey : keys i = keys 0 := (Op.set.inj (List.mem_singleton.1 hmem)).1
  rw [hd.inj hi hn hkey]
  exact Nat.one_pos

/-- An operation in its turn takes place: a lookup leaves the table with as many identities as before, and a store with
one more, or as many. -/
theorem step (hs : s.InRow h keys n ops m) (hd : Drawn h.live start n keys) (hop : HasTurn h.live keys n ops op) :
    ∃ s' m', s.step? op = some s' ∧ s'.InRow h keys n (ops ++ [op]) m' := by
  obtain ⟨rfl, hm, hrow, hstored⟩ := hs
  have hmem {o : Op ν} (ho : o ∈ ops ++ [op]) : o ∈ ops ∨ o = op := (List.mem_append.1 ho).imp id List.mem_singleton.1
  rcases hop with ⟨key, hlive, rfl⟩ | ⟨i, hi, value, rfl, hafter⟩
  · refine ⟨s.after (.get key), m, step?_eq_some_iff.2 ⟨fun k hk => ?_, rfl⟩, rfl, hm, hrow.get? hd hm hlive, ?_⟩
    · cases hk
      exact hlive
    · intro j hj w ho
      rcases hmem ho with hold | hnew
      · exact hstored j hj w hold
      · cases hnew
  · have him : i ≤ m := by
      cases i with
      | zero => exact Nat.zero_le m
      | succ j =>
        obtain ⟨w, hw⟩ := hafter j rfl
        exact hstored j (by omega) w hw
    refine ⟨s.after (.set (keys i) value), max m (i + 1), step?_eq_some_iff.2 ⟨fun k hk => ?_, rfl⟩, rfl, by omega,
      hrow.insert hd hm him hi value, ?_⟩
    · cases hk
      exact hd.held i hi
    · intro j hj w ho
      rcases hmem ho with hold | hnew
      · have hlt := hstored j hj w hold
        omega
      · have hji : j = i := hd.inj hj hi (Op.set.inj hnew).1
        omega

end InRow

/-- A history in turn takes place, and leaves the identities that were stored in a row. -/
theorem run_inTurn (hd : Drawn h.live start n keys) (hops : InTurn h.live keys n (.set (keys 0) v₀ :: ops)) :
    ∃ s m, (first h (keys 0) v₀).run? ops = some s ∧ s.InRow h keys n (.set (keys 0) v₀ :: ops) m := by
  induction ops using List.reverseRecOn with
  | nil =>
    have hn : 0 < n := by
      rcases hops [] _ [] rfl with ⟨key, -, hget⟩ | ⟨i, hi, -⟩
      · cases hget
      · omega
    exact ⟨_, 1, rfl, InRow.first hd hn v₀⟩
  | append_singleton ops op ih =>
    have hlast : InTurn h.live keys n ((.set (keys 0) v₀ :: ops) ++ [op]) := hops
    obtain ⟨hops, hop⟩ := inTurn_concat.1 hlast
    obtain ⟨s, m, hrun, hs⟩ := ih hops
    rw [run?_concat, hrun, Option.bind_some]
    exact hs.step hd hop

/-- Identities with consecutive codes, of which there are at most as many as there are codes, are stored for the first
time one after another, beginning with the one that the table is made for; there may be any number of lookups and
further stores in between. The history takes place. At its end every entry stands in its home. The entry of an identity
that has been stored is there, and a search that may look at one slot finds it, as does a lookup, which changes
nothing. The identities stored are the first so many, and fewer than there are slots. -/
theorem home_of_inTurn (hn : n ≤ 2 ^ 32)
    (hkeys : ∀ i < n, h.live (keys i) = true ∧ (keys i).hash = start + UInt32.ofNat i * 0x61c88647)
    (hops : InTurn h.live keys n (.set (keys 0) v₀ :: ops)) :
    ∃ s, (first h (keys 0) v₀).run? ops = some s ∧
      (∀ x e, s.table.entryAt x = some e → x = s.table.slots.home e.key.hash) ∧
      (∀ key w, .set key w ∈ .set (keys 0) v₀ :: ops → ∃ v,
        s.table.entryAt (s.table.slots.home key.hash) = some (.of key v) ∧
        Table.search s.holders.live key 1 (s.table.slots.home key.hash) s.table =
          some (some (s.table.slots.home key.hash), s.table) ∧
        s.table.get? s.holders.live key = (some v, s.table)) ∧
      ∃ m ≤ n, m < s.table.capacity ∧ ∀ key, (∃ e ∈ s.table.entries, e.key = key) ↔ ∃ i < m, keys i = key := by
  have hd : Drawn h.live start n keys := ⟨hn, fun i hi => (hkeys i hi).1, fun i hi => (hkeys i hi).2⟩
  obtain ⟨s, m, hrun, hholders, hm, hrow, hset⟩ := run_inTurn hd hops
  have hwf := hrow.wellFormed
  have hhome : ∀ x e, s.table.entryAt x = some e → x = s.table.slots.home e.key.hash := by
    intro x e hx
    rw [← hwf.hash_eq e (Table.mem_entries_of_entryAt hx)]
    exact hrow.homed x e hx
  refine ⟨s, hrun, hhome, fun key w hmem => ?_, m, hm, ?_, hrow.stored⟩
  · -- an identity is stored when it has its turn
    obtain ⟨earlier, later, hsplit⟩ := List.append_of_mem hmem
    rcases hops earlier _ later hsplit with ⟨k, -, hget⟩ | ⟨i, hi, value, heq, -⟩
    · cases hget
    · cases heq
      have hlive : s.holders.live (keys i) = true := by
        rw [hholders]
        exact hd.held i hi
      obtain ⟨e, he, hkey⟩ := (hrow.stored (keys i)).2 ⟨i, hset i hi w hmem, rfl⟩
      obtain ⟨x, hx⟩ := Table.mem_entries.1 he
      have hat := hhome x e hx
      rw [hkey] at hat
      rw [hat] at hx
      refine ⟨e.value, ?_, Table.search_home hx hkey hlive, hwf.get?_home hx hkey hlive⟩
      rw [hx, ← Entry.with_value (hwf.hash_eq e he) hkey e.value]
  · exact Nat.lt_of_le_of_lt (hrow.le_len hd hm) hwf.room

/-- Identities made one after another, from a counter that is about to wrap. -/
def wrapping (i : Nat) : Identity := ⟨i, nth 0xf0000000 i⟩

def wrappingHeld : Holders := ⟨16, fun key => decide (key.serial < 16), by simp⟩

/-- After the first one, eleven more are stored. Then the fifteenth is looked up, and the fourth gets another value. -/
def wrappingStored : List (Op Nat) :=
  ((List.range 11).map fun i => .set (wrapping (i + 1)) (21 + i)) ++ [.get (wrapping 14)] ++ [.set (wrapping 3) 33]

/-- The table has doubled, and the fourth identity stands in its home, which is another slot than before. -/
theorem home_of_wrapping :
    InTurn wrappingHeld.live wrapping 16 (.set (wrapping 0) 20 :: wrappingStored) ∧
    ∃ s : Scene Nat, (first wrappingHeld (wrapping 0) 20).run? wrappingStored = some s ∧ s.table.capacity = 32 ∧
      (Table.empty 16 : Table Nat).slots.home (wrapping 3).hash = 5 ∧ s.table.slots.home (wrapping 3).hash = 21 ∧
      s.table.entryAt 21 = some (.of (wrapping 3) 33) ∧
      Table.search s.holders.live (wrapping 3) 1 21 s.table = some (some 21, s.table) := by
  have hrow : InTurn wrappingHeld.live wrapping 16 ((List.range 12).map fun i => .set (wrapping i) (20 + i)) :=
    inTurn_range _ (by decide)
  have hget := inTurn_concat.2 ⟨hrow, Or.inl ⟨wrapping 14, rfl, rfl⟩⟩
  have hagain := inTurn_concat.2 ⟨hget, Or.inr ⟨3, by decide, 33, rfl, fun j hj => ⟨20 + j,
    List.mem_append_left _ (List.mem_map.2 ⟨j, List.mem_range.2 (by omega), rfl⟩)⟩⟩⟩
  have hhistory : InTurn wrappingHeld.live wrapping 16 (.set (wrapping 0) 20 :: wrappingStored) := hagain
  obtain ⟨s, hrun, -, hfirst, -⟩ := @home_of_inTurn _ 0xf0000000 16 wrapping wrappingStored wrappingHeld 20 (by decide)
    (fun i hi => ⟨decide_eq_true hi, rfl⟩) hhistory
  obtain ⟨v, hat, hsearch, -⟩ := hfirst (wrapping 3) 33
    (List.mem_cons_of_mem _ (List.mem_append_right _ (List.mem_singleton_self _)))
  have hshape : ((first wrappingHeld (wrapping 0) 20).run? wrappingStored).map
      (fun s => (s.table.capacity, s.table.entryAt 21)) = some (32, some (.of (wrapping 3) 33)) := by decide +kernel
  rw [hrun, Option.map_some, Option.some_inj, Prod.mk.injEq] at hshape
  have hhome : s.table.slots.home (wrapping 3).hash = 21 := by
    show _ % s.table.capacity = 21
    rw [hshape.1]
    rfl
  rw [hhome] at hsearch
  exact ⟨hhistory, s, hrun, hshape.1, rfl, hhome, hshape.2, hsearch⟩

end Scene

end PerThread
