import PerThread.Proofs.History.Recall
import PerThread.Proofs.Table.Tour
import PerThread.Workload.Run

/-!
# What a child inherits

A child's table is made while computations answer what the child gets for a parent's value. `noted` keeps a
record of these questions, and `Forked` describes the child by the record alone: every live entry of the
parent was asked about once, in slot order, and the child holds the answers that are values, and nothing
else. The parent's layout, with its stale and displaced entries, leaves no trace.

That requires the answers not to change who is held. As an identity is asked about at most once, answers given
one after another are then as good as a function, and the child's table is one of the tables of a history.
-/

namespace PerThread

variable {ν σ : Type} {live : Liveness} {t child : Table ν} {key : Identity}

/-- A question for a child's value, and the answer. -/
structure Inquiry (ν : Type) where
  key : Identity
  parent : ν
  child : Option ν

def noted (childValue : Identity → ν → Exec σ (Option ν)) (e : Entry ν) :
    Exec (σ × List (Inquiry ν)) (Option ν) := fun x =>
  match childValue e.key e.value x.1 with
  | .ok r y => .ok r (y, x.2 ++ [⟨e.key, e.value, r⟩])
  | .error i y => .error i (y, x.2)

/-- A child's table and the inquiries it was made from. -/
structure Forked (live : Liveness) (t : Table ν) (asked : List (Inquiry ν)) (child : Table ν) : Prop where
  wellFormed : child.WellFormed
  capacity_eq : child.capacity = t.capacity
  threshold_eq : child.threshold = t.threshold
  reclaimed_eq : child.reclaimed = []
  /-- Each live entry was asked about once, and no other. -/
  asked_eq : asked.map (fun q => (q.key, q.parent)) =
    (t.entries.filter (live ·.key)).map fun e => (e.key, e.value)
  /-- A lookup finds the value that was the answer for what the parent had. -/
  get?_iff : ∀ key v', (child.get? live key).1 = some v' ↔
    live key = true ∧ ∃ v, (t.get? live key).1 = some v ∧ ⟨key, v, some v'⟩ ∈ asked
  no_stale : ∀ e ∈ child.entries, e.stale live = false
  len_eq : child.len = asked.countP (·.child.isSome)
  event_eq : child.forkedEvent = .forked t.capacity (asked.countP (·.child.isSome))

namespace Table

/-- Only what is alive is found. -/
theorem WellFormed.live_of_get? (h : t.WellFormed) {v : ν} (hget : (t.get? live key).1 = some v) :
    live key = true := by
  obtain ⟨z, hz, hfree⟩ := h.exists_free
  obtain ⟨j, found, out, u, hsearch, -, hf⟩ := h.toSound.search (t.capacity + t.staleCount live) hz hfree
    (home_lt (Nat.zero_lt_of_lt hz) key.hash) (passed_home live t key) (by omega)
  unfold Table.get? searchLimit at hget
  rw [hsearch] at hget
  rcases hf.here with ⟨rfl, -⟩ | ⟨-, e, -, hb⟩
  · cases hget
  · obtain ⟨hkey, hs⟩ := Entry.belongs_iff.1 hb
    simpa [Entry.stale_eq hkey] using hs

/-- What a lookup finds, in terms of the map that a table is. -/
theorem WellFormed.get?_eq_some_iff (h : t.WellFormed) {v : ν} :
    (t.get? live key).1 = some v ↔ live key = true ∧ t.valueOf? key = some v := by
  constructor
  · intro hget
    have hlive := h.live_of_get? hget
    obtain ⟨-, -, -, -, -, hvalue⟩ := h.get? hlive
    exact ⟨hlive, hvalue ▸ hget⟩
  · rintro ⟨hlive, hv⟩
    obtain ⟨-, -, -, -, -, hvalue⟩ := h.get? hlive
    rw [hvalue, hv]

end Table

/-! ## Tours that do not change who is alive -/

section
variable {alive : σ → Liveness} {childValue : Identity → ν → Exec σ (Option ν)}
  {turns : List (Turn ν (σ × List (Inquiry ν)))} {x y : σ × List (Inquiry ν)}

def inquiries (live : Liveness) (turns : List (Turn ν σ)) : List (Inquiry ν) :=
  (turns.filter (live ·.entry.key)).map fun τ => ⟨τ.entry.key, τ.entry.value, τ.heir⟩

theorem noted_ok {e : Entry ν} {r : Option ν} (h : noted childValue e x = .ok r y) :
    childValue e.key e.value x.1 = .ok r y.1 ∧ y.2 = x.2 ++ [⟨e.key, e.value, r⟩] := by
  unfold noted at h
  split at h
  · rename_i heq
    cases h
    exact ⟨heq, rfl⟩
  · cases h

/-- The record is that of the entries alive from the start. -/
theorem Tour.noted_eq (halive : ∀ key v a r b, childValue key v a = .ok r b → alive b = alive a)
    (h : Tour (alive ∘ Prod.fst) (fun e x r y => noted childValue e x = .ok r y) x turns y) :
    alive y.1 = alive x.1 ∧ y.2 = x.2 ++ inquiries (alive x.1) turns ∧
      ∀ τ ∈ turns, alive x.1 τ.entry.key = false → τ.heir = none := by
  induction h with
  | nil x => simp [inquiries]
  | @cons x y τ rest here hfair tail ih =>
    subst here
    cases hlive : alive τ.before.1 τ.entry.key with
    | false =>
      obtain ⟨hheir, hafter⟩ := hfair.passed hlive
      rw [hafter] at ih
      obtain ⟨ha, hlog, hnone⟩ := ih
      refine ⟨ha, ?_, ?_⟩
      · rw [hlog]
        simp [inquiries, hlive]
      · intro τ' hτ' hdead
        rcases List.mem_cons.1 hτ' with rfl | hτ'
        · exact hheir
        · exact hnone τ' hτ' hdead
    | true =>
      obtain ⟨hask, hone⟩ := noted_ok (hfair.asked hlive)
      have hsame := halive _ _ _ _ _ hask
      obtain ⟨ha, hlog, hnone⟩ := ih
      rw [hsame] at ha hlog hnone
      refine ⟨ha, ?_, ?_⟩
      · rw [hlog, hone]
        simp [inquiries, hlive]
      · intro τ' hτ' hdead
        rcases List.mem_cons.1 hτ' with rfl | hτ'
        · simp [hlive] at hdead
        · exact hnone τ' hτ' hdead

end

section
variable {turns : List (Turn ν σ)}

theorem mem_inquiries {q : Inquiry ν} :
    q ∈ inquiries live turns ↔
      ∃ τ ∈ turns, live τ.entry.key = true ∧ q = ⟨τ.entry.key, τ.entry.value, τ.heir⟩ := by
  simp only [inquiries, List.mem_map, List.mem_filter]
  constructor
  · rintro ⟨τ, ⟨hτ, hlive⟩, rfl⟩
    exact ⟨τ, hτ, hlive, rfl⟩
  · rintro ⟨τ, hτ, hlive, rfl⟩
    exact ⟨τ, ⟨hτ, hlive⟩, rfl⟩

theorem live_of_heir (hdead : ∀ τ ∈ turns, live τ.entry.key = false → τ.heir = none) {τ : Turn ν σ}
    (hτ : τ ∈ turns) {v : ν} (hheir : τ.heir = some v) : live τ.entry.key = true := by
  by_contra hno
  rw [hdead τ hτ (by simpa using hno)] at hheir
  cases hheir

/-- One heir for each answer that is a value. -/
theorem length_heirsOf (hdead : ∀ τ ∈ turns, live τ.entry.key = false → τ.heir = none) :
    (heirsOf turns).length = (inquiries live turns).countP (·.child.isSome) := by
  induction turns with
  | nil => rfl
  | cons τ rest ih =>
    have hrest := ih fun τ' hτ' => hdead τ' (List.mem_cons_of_mem τ hτ')
    simp only [heirsOf, inquiries] at hrest
    cases hlive : live τ.entry.key with
    | false =>
      have hheir := hdead τ List.mem_cons_self hlive
      simp [heirsOf, inquiries, hlive, Turn.entry?, hheir, hrest]
    | true =>
      cases hheir : τ.heir with
      | none => simp [heirsOf, inquiries, hlive, Turn.entry?, hheir, hrest]
      | some value => simp [heirsOf, inquiries, hlive, Turn.entry?, hheir, hrest]

/-- The answers of a tour, by identity. -/
def answers (turns : List (Turn ν σ)) (key : Identity) (_ : ν) : Option ν :=
  (turns.find? (·.entry.key == key)).bind Turn.heir

/-- As every identity has one turn at most, the answers are a function of the identity. -/
theorem heirsOf_eq_heirs (hn : ((turns.map Turn.entry).map Entry.key).Nodup)
    (hdead : ∀ τ ∈ turns, live τ.entry.key = false → τ.heir = none) :
    heirsOf turns = Table.heirs live (answers turns) (turns.map Turn.entry) := by
  rw [Table.heirs, heirsOf, List.filterMap_map]
  refine List.filterMap_congr fun τ hτ => ?_
  have hkeys : (turns.map fun τ => τ.entry.key).Nodup := by
    rw [List.map_map] at hn
    exact hn
  have hfind : turns.find? (·.entry.key == τ.entry.key) = some τ := by
    have hany : (turns.find? (·.entry.key == τ.entry.key)).isSome :=
      List.find?_isSome.2 ⟨τ, hτ, beq_self_eq_true _⟩
    obtain ⟨τ', hτ'⟩ := Option.isSome_iff_exists.1 hany
    have hkey : τ'.entry.key = τ.entry.key := by simpa using List.find?_some hτ'
    rw [hτ', List.inj_on_of_nodup_map hkeys (List.mem_of_find?_eq_some hτ') hτ hkey]
  cases hlive : live τ.entry.key with
  | false => simp [Turn.entry?, hdead τ hτ hlive, hlive]
  | true => simp [Turn.entry?, answers, hlive, hfind]

/-- Who is asked about is alive, and has the value that is asked about. -/
theorem valueOf?_of_mem_inquiries (hn : (t.entries.map Entry.key).Nodup)
    (hturns : turns.map Turn.entry = t.entries) {v : ν} {r : Option ν}
    (hq : ⟨key, v, r⟩ ∈ inquiries live turns) : live key = true ∧ t.valueOf? key = some v := by
  obtain ⟨τ, hτ, hlive, heq⟩ := mem_inquiries.1 hq
  obtain ⟨rfl, rfl, -⟩ := Inquiry.mk.injEq .. ▸ heq
  exact ⟨hlive, Table.valueOf?_eq_some hn (hturns ▸ List.mem_map_of_mem hτ) rfl⟩

/-- What the child has for an identity is the answer about it. -/
theorem valueOf?_endow (h : t.WellFormed) (hturns : turns.map Turn.entry = t.entries)
    (hdead : ∀ τ ∈ turns, live τ.entry.key = false → τ.heir = none) {v' : ν} :
    ((Table.empty t.capacity).endow (heirsOf turns)).valueOf? key = some v' ↔
      ∃ v, ⟨key, v, some v'⟩ ∈ inquiries live turns := by
  rw [h.valueOf?_endow hturns]
  constructor
  · rintro ⟨τ, hτ, rfl, hheir⟩
    have hlive := live_of_heir hdead hτ hheir
    exact ⟨τ.entry.value, mem_inquiries.2 ⟨τ, hτ, hlive, by rw [hheir]⟩⟩
  · rintro ⟨v, hq⟩
    obtain ⟨τ, hτ, -, heq⟩ := mem_inquiries.1 hq
    obtain ⟨rfl, -, hheir⟩ := Inquiry.mk.injEq .. ▸ heq
    exact ⟨τ, hτ, rfl, hheir.symm⟩

end

/-! ## The child that a tour leads to -/

theorem forked_of_tour {turns : List (Turn ν σ)} (h : t.WellFormed)
    (hturns : turns.map Turn.entry = t.entries)
    (hdead : ∀ τ ∈ turns, live τ.entry.key = false → τ.heir = none) :
    Forked live t (inquiries live turns) ((Table.empty t.capacity).endow (heirsOf turns)) := by
  obtain ⟨hwf, hcap, hent⟩ := h.endow_heirsOf hturns
  have hlen : ((Table.empty t.capacity).endow (heirsOf turns)).len =
      (inquiries live turns).countP (·.child.isSome) := by
    rw [hwf.len_eq, hent.length_eq, length_heirsOf hdead]
  refine
    { wellFormed := hwf
      capacity_eq := hcap
      threshold_eq := by rw [hwf.threshold_eq, hcap, h.threshold_eq]
      reclaimed_eq := rfl
      asked_eq := ?_
      get?_iff := ?_
      no_stale := ?_
      len_eq := hlen
      event_eq := by rw [Table.forkedEvent, hcap, hlen] }
  · rw [← hturns, inquiries, List.filter_map, List.map_map, List.map_map]
    rfl
  · intro key v'
    rw [hwf.get?_eq_some_iff, valueOf?_endow h hturns hdead]
    refine and_congr_right fun hlive => exists_congr fun v => ?_
    constructor
    · intro hq
      exact ⟨h.get?_eq_some_iff.2 (valueOf?_of_mem_inquiries h.nodup hturns hq), hq⟩
    · exact And.right
  · intro f hf
    obtain ⟨τ, hτ, value, hheir, rfl⟩ := mem_heirsOf.1 (hent.mem_iff.1 hf)
    simp [Entry.stale, live_of_heir hdead hτ hheir]

/-- The inquiries about `es` where answers have no effects. -/
def answered (live : Liveness) (childValue : Identity → ν → Option ν) (es : List (Entry ν)) :
    List (Inquiry ν) :=
  (es.filter (live ·.key)).map fun e => ⟨e.key, e.value, childValue e.key e.value⟩

/-- A child's table where answers have no effects. -/
theorem Table.WellFormed.forked (h : t.WellFormed) (live : Liveness)
    (childValue : Identity → ν → Option ν) :
    Forked live t (answered live childValue t.entries) (t.fork live childValue) := by
  let turn (e : Entry ν) : Turn ν Unit :=
    ⟨e, (), if live e.key then childValue e.key e.value else none, ()⟩
  have hturns : (t.entries.map turn).map Turn.entry = t.entries := by
    rw [List.map_map]
    exact List.map_id _
  have hasked : inquiries live (t.entries.map turn) = answered live childValue t.entries := by
    rw [inquiries, List.filter_map, List.map_map, answered]
    refine List.map_congr_left fun e he => ?_
    have hlive : live e.key = true := (List.mem_filter.1 he).2
    simp [turn, hlive]
  have hheirs : heirsOf (t.entries.map turn) = heirs live childValue t.entries := by
    rw [heirsOf, List.filterMap_map]
    refine List.filterMap_congr fun e _ => ?_
    cases hlive : live e.key <;> simp [turn, Turn.entry?, hlive]
  have hforked := forked_of_tour h hturns fun τ hτ hdead => by
    obtain ⟨e, -, rfl⟩ := List.mem_map.1 hτ
    exact if_neg (by simpa [turn] using hdead)
  rwa [hasked, hheirs, ← fork_eq_endow] at hforked

section
variable {alive : σ → Liveness} {childValue : Identity → ν → Exec σ (Option ν)} {c c' : Table ν}
  {es : List (Entry ν)}

/-- Taking notes changes nothing else. -/
theorem Table.walk_of_noted {x : σ} {notes : List (Inquiry ν)} {y : σ × List (Inquiry ν)}
    (h : walk (alive ∘ Prod.fst) (fun _ => noted childValue) c es (x, notes) = .ok c' y) :
    walk alive (fun _ e => childValue e.key e.value) c es x = .ok c' y.1 := by
  induction es generalizing c x notes with
  | nil =>
    cases h
    rfl
  | cons e rest ih =>
    cases hlive : alive x e.key with
    | false =>
      have hpair : (alive ∘ Prod.fst) (x, notes) e.key = false := hlive
      rw [walk_cons_passed hpair] at h
      rw [walk_cons_passed hlive]
      exact ih h
    | true =>
      have hpair : (alive ∘ Prod.fst) (x, notes) e.key = true := hlive
      rw [walk_cons_asked hpair] at h
      rw [walk_cons_asked hlive]
      unfold noted at h
      cases hvalue : childValue e.key e.value x with
      | error i z => simp [hvalue] at h
      | ok r z =>
        simp only [hvalue] at h
        cases r with
        | none => exact ih h
        | some value => exact ih h

/-- Where every question has an answer, the walk comes to its end. -/
theorem Table.walk_noted (alive : σ → Liveness) (c : Table ν) (es : List (Entry ν))
    (hanswers : ∀ key v a, ∃ r b, childValue key v a = .ok r b) (x : σ × List (Inquiry ν)) :
    ∃ c' y, walk (alive ∘ Prod.fst) (fun _ => noted childValue) c es x = .ok c' y := by
  cases hrun : walk (alive ∘ Prod.fst) (fun _ => noted childValue) c es x with
  | ok c' y => exact ⟨c', y, rfl⟩
  | error i y =>
    obtain ⟨turns, e, rest, m, -, -, -, herror⟩ :=
      walk_error (fun _ _ _ _ => True) (fun _ _ _ _ _ _ => trivial) hrun
    obtain ⟨r, b, hvalue⟩ := hanswers e.key e.value m.1
    simp [noted, hvalue] at herror

end

namespace Scene

variable {s s' : Scene ν}

/-- A child's history starts with the answers. -/
theorem Reachable.look_of_fork (hs : s.Reachable) {childValue : Identity → ν → Option ν}
    {ops : List (Op ν)} (hrun : (s.fork childValue).run? ops = some s') (hlive : s'.holders.live key = true)
    {v : ν} :
    s'.look key = some v ↔ LastSet key v ops ∨
      (s.table.fork s.holders.live childValue).valueOf? key = some v ∧
        ∀ op ∈ ops, op.writes key = false := by
  have hc := hs.fork childValue
  rw [(hc.run ops hrun).coherent.look_eq hlive, hc.coherent.valueOf?_run hrun (Or.inl hlive),
    lastWrite_eq_some_iff]
  simp only [Op.write?_eq_none_iff]
  rfl

/-- What a fork leads to when the answers do not change who is held: a child that has the answers and nothing
else, and that goes on as any table does, while the parent stays as it was. -/
theorem Reachable.forked_of_answers (hs : s.Reachable) (alive : σ → Liveness) {x : σ} (hx : alive x = s.holders.live)
    (childValue : Identity → ν → Exec σ (Option ν))
    (hanswers : ∀ key v a, ∃ r b, childValue key v a = .ok r b ∧ alive b = alive a) :
    (∃ child asked y,
      s.table.forkM (fun key => return alive (← get) key) (fun _ e => childValue e.key e.value) x =
        .ok child y ∧
      s.table.forkM (fun key => return alive (← get).1 key) (fun _ => noted childValue) (x, []) =
        .ok child (y, asked) ∧
      Forked s.holders.live s.table asked child ∧
      ∃ c : Scene ν, c.Reachable ∧ c.holders = s.holders ∧ c.table = child ∧
        ∀ ops s', c.run? ops = some s' → ∀ key, s'.holders.live key = true → ∀ v,
          s'.look key = some v ↔ LastSet key v ops ∨
            (∃ p, ⟨key, p, some v⟩ ∈ asked) ∧ ∀ op ∈ ops, op.writes key = false) ∧
    ∀ (α : Type) (make : Nat → α → ν) (b : Workload.Bench ν) (n : Int),
      b.table? = some s.table → n ≠ b.current →
      (b.perform make (.fork n)).bench.table? = some s.table ∧
      ∃ child, (b.perform make (.fork n)).bench.tables.find? n = some child ∧
        (b.perform make (.fork n)).events = [child.forkedEvent] ∧
        Forked b.live s.table (answered b.live b.childValue s.table.entries) child := by
  have hwf := hs.coherent.wellFormed
  refine ⟨?_, fun α make b n htable hn => ?_⟩
  · have htotal (key : Identity) (v : ν) (a : σ) : ∃ r b, childValue key v a = .ok r b := by
      obtain ⟨r, b, hb, -⟩ := hanswers key v a
      exact ⟨r, b, hb⟩
    obtain ⟨child, ⟨y, asked⟩, hrun⟩ :=
      Table.walk_noted alive (.empty s.table.capacity) s.table.entries htotal (x, [])
    obtain ⟨turns, hturns, htour, hchild⟩ :=
      Table.walk_ok _ (fun _ e a r b (h : noted childValue e a = .ok r b) => h) hrun
    obtain ⟨-, hasked, hdead⟩ := htour.noted_eq fun key v a r b hb => by
      obtain ⟨r', b', hb', hsame⟩ := hanswers key v a
      rw [hb] at hb'
      cases hb'
      exact hsame
    simp only [hx] at hasked hdead
    obtain rfl : asked = inquiries s.holders.live turns := hasked
    have hforked := forked_of_tour hwf hturns hdead
    rw [← hchild] at hforked
    have hnodup : ((turns.map Turn.entry).map Entry.key).Nodup := hturns ▸ hwf.nodup
    have hfork := (heirsOf_eq_heirs hnodup hdead).symm
    rw [hturns] at hfork
    refine ⟨child, _, y, Table.walk_of_noted hrun, hrun, hforked, s.fork (answers turns),
      hs.fork (answers turns), rfl, ?_, ?_⟩
    · exact (Table.fork_eq_endow _ _ _).trans (hfork ▸ hchild.symm)
    · intro ops s' hops key hlive v
      rw [hs.look_of_fork hops hlive, Table.fork_eq_endow, hfork, valueOf?_endow hwf hturns hdead]
  · have hstep : b.perform make (.fork n) =
        ⟨.done, [(s.table.fork b.live b.childValue).forkedEvent],
          { b with tables := b.tables.set n (s.table.fork b.live b.childValue) }⟩ := by
      simp only [Workload.Bench.perform, Workload.Bench.withTable, htable]
    rw [hstep]
    refine ⟨?_, _, Registry.find?_set_self .., rfl, hwf.forked b.live b.childValue⟩
    exact (Registry.find?_set_of_ne b.tables hn.symm _).trans htable

/-- Refuses odd numbers, and counts the questions. -/
def halved (_ : Identity) (v : Nat) : Exec Nat (Option Nat) := fun n =>
  .ok (if v % 2 = 0 then some (v / 2) else none) (n + 1)

/-- Three variables have one hash code, and the second of them was let go of. -/
theorem forked_past_stale :
    ∃ s : Scene Nat, (first (.make .nobody 7) ⟨0, 7⟩ 20).run?
        [.make 7, .set ⟨1, 7⟩ 21, .make 7, .set ⟨2, 7⟩ 23, .forget ⟨1, 7⟩] = some s ∧
      ∃ child asked, (s.table.forkM (fun key => return s.holders.live key) (fun _ e => halved e.key e.value) :
          Exec Nat (Table Nat)) 0 = .ok child 2 ∧
        Forked s.holders.live s.table asked child ∧
        asked.map (fun q => (q.key.serial, q.parent, q.child)) = [(0, 20, some 10), (2, 23, none)] := by
  refine ⟨_, rfl, ?_⟩
  have hs := (reachable_first 7 20).run
      [.make 7, .set ⟨1, 7⟩ 21, .make 7, .set ⟨2, 7⟩ 23, .forget ⟨1, 7⟩] rfl
  obtain ⟨⟨child, asked, y, hrun, hnoted, hforked, -⟩, -⟩ :=
    hs.forked_of_answers (fun _ => _) (x := 0) rfl halved fun _ _ _ => ⟨_, _, rfl, rfl⟩
  cases hnoted
  exact ⟨_, _, hrun, hforked, rfl⟩

end Scene

end PerThread
