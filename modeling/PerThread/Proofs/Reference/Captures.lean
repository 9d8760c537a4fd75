import PerThread.Proofs.Inheritance.Snapshot
import PerThread.Proofs.Reference.Bequests
import PerThread.Proofs.Reference.Handles

/-!
# Captures keep up with the reference

The walk over a table and the reference pass the same values on, the one in the order of the slots, the other in
that of the variables. Only the numbers of the derived objects tell them apart, and these are what a renaming is
for (`birthNumber`).
-/

namespace PerThread.Reference

open Exec (Yields)
open Script (userCode)

variable {number : Origin → Nat} {s : State} {ms : List (Kind → Option Map)} {w q : World} {t : Table Ref}
  {m : Map} {n : Nat} {v : Value} {e : Entry Ref} {p : Step → Action Reply} {made : List Datum}
  {calls : List (LogEntry Reply)}

/-- What derivations make of the parents' values. -/
def State.makings (s : State) (bs : List (Nat × Value)) : List Datum := bs.map fun b => (s.heir b.1 b.2).datum

/-- How their calls appear in a log. -/
def State.derivings (s : State) (number : Origin → Nat) (bs : List (Nat × Value)) : List (LogEntry Reply) :=
  bs.map fun b => .derivationCalled (s.variableAt b.1).name (number b.2.origin)

/-- The table has the entry where the map has a value, if anyone can ask for it. -/
structure Legible (number : Origin → Nat) (s : State) (m : Map) (e : Entry Ref) : Prop where
  key_eq : e.key = numbered e.key.serial
  mapped : s.live e.key.serial = true → ∃ v ∈ s.objects, m e.key.serial = some v ∧ e.value = number v.origin

theorem Mapped.legible (h : Mapped number s t m) (he : e ∈ t.entries) : Legible number s m e := by
  have hkey := (h.known e he).1
  refine ⟨hkey, fun hlive => ?_⟩
  have hvalue := h.value _ hlive
  rw [← hkey, Table.valueOf?_eq_some h.whole.nodup he rfl] at hvalue
  obtain ⟨v, hv, hnumber⟩ := Option.map_eq_some_iff.1 hvalue.symm
  exact ⟨v, h.made _ v hv, hv, hnumber.symm⟩

/-! ## The walk -/

theorem Backed.variableOf?_grown (h : Backed number s w.core) (hq : q.core = w.core.grow made calls)
    {key : Identity} (hkey : key = numbered n) (hn : n < s.vars.length) :
    q.variableOf? key = some ((s.variableAt n).real n) := by
  have hcatalog : q.core.variableOf? key = w.core.variableOf? key := by rw [hq]; rfl
  rw [← h.variableOf? hn, ← hkey]
  exact hcatalog

theorem yields_derive (h : Matches number s ms w.core) (hq : q.core = w.core.grow made calls) {key : Identity}
    (hkey : key = numbered n) (hn : n < s.vars.length) (hv : v ∈ s.objects) {r : Ref} (hr : r = number v.origin)
    {d : Derivation Step} (hd : (s.variableAt n).recipe.derivation = some d) :
    Yields (Script.derive p key r) q fun r' q' =>
      r' = q.core.objects.size ∧
        q'.core = q.core.grow [d.valueFor v.datum] [.derivationCalled (s.variableAt n).name r] := by
  obtain ⟨hbody, hpanic, hdestroy⟩ := (h.quiet_at hn).derivation d hd
  have hrun : Yields (Script.variableOf key) q fun x q' => x = (s.variableAt n).real n ∧ q = q' := by
    refine .read ?_
    rw [h.variableOf?_grown hq hkey hn]
    exact .pure ⟨rfl, rfl⟩
  refine hrun.bind ?_
  rintro _ _ ⟨rfl, rfl⟩
  have hrecipe : ((s.variableAt n).real n).recipe.derivation = some d := hd
  have hname : ((s.variableAt n).real n).name = (s.variableAt n).name := rfl
  rw [hrecipe, hname]
  refine (Action.yields_report rfl).bind fun _ q₁ hq₁ => ?_
  have hdatum : (q₁.object r).value = v.datum := by
    have hlt := h.number_lt hv
    rw [← q₁.core_object, hq₁, hq, hr, ← h.object hv]
    unfold World.object World.grow
    simp only [Array.getD_eq_getD_getElem?, List.map_nil, Array.append_empty]
    rw [Array.getElem?_append_left hlt]
  have hmake : Yields (do Action.newObject (d.valueFor ((← get).object r).value) []) q₁ fun r' q' =>
      r' = q.core.objects.size ∧
        q'.core = q.core.grow [d.valueFor v.datum] [.derivationCalled (s.variableAt n).name r] := by
    refine .read ?_
    rw [hdatum]
    refine (Action.yields_newObject _).mono ?_
    rintro _ q' ⟨rfl, hq'⟩
    refine ⟨?_, ?_⟩
    · rw [hq₁]
      simp [World.grow]
    · rw [hq', hq₁, World.grow_grow]
      rfl
  rw [hbody, hpanic, hdestroy]
  exact hmake

theorem yields_heir (h : Matches number s ms w.core) (hq : q.core = w.core.grow made calls)
    (he : Legible number s m e) (hlive : s.live e.key.serial = true) :
    Yields (Handle.childValue (userCode p) ⟨.inheritable, e.key⟩ e.value) q fun r q' =>
      r = some (s.passed q.core.objects.size e).value ∧
        q'.core = q.core.grow (s.makings (s.bequests m [e.key.serial]))
          (s.derivings number (s.bequests m [e.key.serial])) := by
  obtain ⟨v, hv, hm, hvalue⟩ := he.mapped hlive
  have hn := h.bounded hlive
  have hvariable := h.variableOf?_grown hq he.key_eq hn
  unfold Yields
  rw [PerThread.Handle.childValue_run, hvariable]
  cases hd : (s.variableAt e.key.serial).recipe.derivation with
  | none =>
    have hderives : s.derives e.key.serial = false := by rw [State.derives, hd]; rfl
    have hnothing : s.bequests m [e.key.serial] = [] := State.bequests_nothing (by rw [hderives, Bool.and_false])
    have hrule : (some ((s.variableAt e.key.serial).real e.key.serial)).elim .refused
        (·.recipe.childRule .inheritable) = .shared := by
      simp [Variable.real, Recipe.childRule, hd]
    rw [hrule, hnothing, State.passed, hderives]
    refine Yields.bind (Action.quiet_retain e.value) fun _ q' hq' => .pure ⟨rfl, ?_⟩
    rw [hq']
    exact q.core.grow_nil.symm
  | some d =>
    have hderives : s.derives e.key.serial = true := by rw [State.derives, hd]; rfl
    have hrule : (some ((s.variableAt e.key.serial).real e.key.serial)).elim .refused
        (·.recipe.childRule .inheritable) = .derived d := by
      simp [Variable.real, Recipe.childRule, hd]
    rw [hrule, State.bequests_one hlive hderives hm, State.passed, hderives]
    refine (yields_derive h hq he.key_eq hn hv hvalue hd).bind ?_
    rintro _ q' ⟨rfl, hq'⟩
    refine .pure ⟨rfl, ?_⟩
    rw [hq', hvalue]
    simp [State.makings, State.derivings, State.heir, hd]

theorem yields_childValue (h : Matches number s ms w.core) (hq : q.core = w.core.grow made calls)
    (he : Legible number s m e) (hlive : s.live e.key.serial = true) (child : Table Ref) :
    Yields (Inheritance.childValue (userCode p) child e) q fun r q' =>
      r = some (s.passed q.core.objects.size e).value ∧
        q'.core = q.core.grow (s.makings (s.bequests m [e.key.serial]))
          (s.derivings number (s.bequests m [e.key.serial])) := by
  obtain ⟨g, hg, hgn⟩ := State.live_iff.1 hlive
  have hheld : Matches number s ms { w with inUse := e.key :: w.inUse }.core := by
    rw [he.key_eq, ← hgn]
    exact h.hold hg
  have hinUse : q.core.inUse = w.inUse := by rw [hq]; rfl
  have hq₁ : { q with inUse := e.key :: q.inUse }.core =
      { w with inUse := e.key :: w.inUse }.core.grow made calls := by
    show { q.core with inUse := e.key :: q.core.inUse } =
      { w.core.grow made calls with inUse := e.key :: w.inUse }
    rw [hinUse, hq]
  refine Yields.onPanic (Action.yields_holding (yields_heir hheld hq₁ he hlive) ?_) _
  rintro r q' ⟨hr, hq'⟩
  refine ⟨hr, ?_⟩
  have hback : q'.core.inUse.erase e.key = q.inUse := by
    rw [hq']
    exact List.erase_cons_head ..
  show { q'.core with inUse := q'.core.inUse.erase e.key } = _
  rw [hback, hq']
  rfl

theorem yields_walk (h : Matches number s ms w.core) {es : List (Entry Ref)}
    (hes : ∀ e ∈ es, Legible number s m e) (hq : q.core = w.core.grow made calls) (child : Table Ref) :
    Yields (child.walk World.live (Inheritance.childValue (userCode p)) es) q fun c q' =>
      c = child.endow (s.passedOn q.core.objects.size es) ∧
        q'.core = q.core.grow (s.makings (s.bequests m (State.serials es)))
          (s.derivings number (s.bequests m (State.serials es))) := by
  induction es generalizing q child made calls with
  | nil =>
    refine .pure ⟨rfl, ?_⟩
    exact q.core.grow_nil.symm
  | cons e rest ih =>
    obtain ⟨he, hrest⟩ := List.forall_mem_cons.1 hes
    have halive : q.live e.key = s.live e.key.serial := by
      have hsame : q.core.live = w.core.live := by rw [hq]; rfl
      have hlive := h.live_eq e.key.serial
      rw [← he.key_eq, ← hsame] at hlive
      exact hlive
    have hserials : State.serials (e :: rest) = e.key.serial :: State.serials rest := rfl
    rw [hserials, State.bequests_cons, State.passedOn]
    cases hlive : s.live e.key.serial with
    | false =>
      rw [hlive] at halive
      unfold Yields
      rw [Table.walk_cons_passed halive, State.bequests_nothing (by rw [hlive]; rfl)]
      exact ih hrest hq child
    | true =>
      rw [hlive] at halive
      obtain ⟨_, q₁, hrun, rfl, hq₁⟩ := yields_childValue (p := p) h hq he hlive child
      have hgrown : q₁.core = w.core.grow _ _ := hq₁.trans (by rw [hq, World.grow_grow])
      unfold Yields
      rw [Table.walk_cons_asked halive, hrun]
      refine Yields.mono (ih hrest hgrown _) ?_
      rintro c q' ⟨rfl, hq'⟩
      have hweight : (s.bequests m [e.key.serial]).length = s.weight e.key.serial :=
        State.length_bequests_one fun hlive => (he.mapped hlive).imp fun v hv => hv.2.1
      have hsize : q₁.core.objects.size = q.core.objects.size + s.weight e.key.serial := by
        rw [hq₁, World.size_grow, State.makings, List.length_map, hweight]
      refine ⟨?_, ?_⟩
      · rw [if_pos rfl, hsize, Table.endow_cons, State.passed_eq]
      · rw [hq', hq₁, World.grow_grow]
        simp only [State.makings, State.derivings, List.map_append]

/-! ## What both have passed on -/

theorem Mapped.nodup_serials (h : Mapped number s t m) : (State.serials t.entries).Nodup := by
  refine List.Nodup.of_map numbered ?_
  have hkeys : (State.serials t.entries).map numbered = t.entries.map Entry.key := by
    rw [State.serials, List.map_map]
    exact List.map_congr_left fun e he => (h.known e he).1.symm
  rw [hkeys]
  exact h.whole.nodup

theorem Mapped.exists_entry (h : Mapped number s t m) (hlive : s.live n = true) (hv : m n = some v) :
    ∃ e ∈ t.entries, e.key = numbered n ∧ e.value = number v.origin := by
  have hvalue := h.value n hlive
  rw [hv] at hvalue
  exact (Table.valueOf?_eq_some_iff h.whole.nodup).1 hvalue

theorem Mapped.bequests_perm (h : Mapped number s t m) :
    (s.bequests m (State.serials t.entries)).Perm (s.bequests m (List.range s.vars.length)) := by
  refine State.bequests_perm h.nodup_serials List.nodup_range fun n v hlive hv => ?_
  obtain ⟨e, he, hkey, -⟩ := h.exists_entry hlive hv
  refine iff_of_true (List.mem_map.2 ⟨e, he, ?_⟩) (List.mem_range.2 (h.bounded n v hv))
  rw [hkey]
  rfl

theorem State.heir_of_derives (h : s.derives n = true) (v : Value) :
    (s.heir n v).origin = .derived s.captured n := by
  unfold State.derives at h
  unfold State.heir
  cases hd : (s.variableAt n).recipe.derivation with
  | none => simp [hd] at h
  | some d => rfl

theorem State.heir_of_shares (h : s.derives n = false) (v : Value) : s.heir n v = v := by
  unfold State.derives at h
  unfold State.heir
  cases hd : (s.variableAt n).recipe.derivation with
  | none => rfl
  | some d => simp [hd] at h

theorem State.inherited_eq_some_iff :
    s.inherited m n = some v ↔ s.live n = true ∧ ∃ u, m n = some u ∧ s.heir n u = v := by
  unfold State.inherited
  rw [Option.ite_none_right_eq_some, Option.map_eq_some_iff]

/-- The state of the reference after a capture of `m`. -/
abbrev State.bequeathed (s : State) (m : Map) : State :=
  s.passOn ((s.bequests m (List.range s.vars.length)).map fun b => s.heir b.1 b.2)

theorem Mapped.heir_mem (h : Mapped number s t m) (hlive : s.live n = true) (hv : m n = some v) :
    s.heir n v ∈ (s.bequeathed m).objects := by
  cases hderives : s.derives n with
  | true =>
    refine List.mem_append_right _ (List.mem_map.2 ⟨(n, v), ?_, rfl⟩)
    exact State.mem_bequests.2 ⟨List.mem_range.2 (h.bounded n v hv), hlive, hderives, hv⟩
  | false =>
    rw [State.heir_of_shares hderives]
    exact List.mem_append_left _ (h.made n v hv)

section
variable (hnumber : ∀ n, number (.derived s.captured n) = w.objects.size + s.rank m (State.serials t.entries) n)
include hnumber

theorem Matches.bequeath (h : Matches number s ms w) (ht : Mapped number s t m) (calls : List (LogEntry Reply)) :
    Matches number (s.bequeathed m) ms
      (w.grow (s.makings (s.bequests m (State.serials t.entries))) calls) := by
  have hnodup := ht.nodup_serials
  have hheir {b : Nat × Value} (hb : b ∈ s.bequests m (State.serials t.entries)) :
      number (s.heir b.1 b.2).origin = w.objects.size + s.rank m (State.serials t.entries) b.1 := by
    rw [State.heir_of_derives (State.mem_bequests.1 hb).2.2.1, hnumber]
  have hmap : ((s.bequests m (State.serials t.entries)).map fun b => number (s.heir b.1 b.2).origin) =
      (List.range (s.bequests m (State.serials t.entries)).length).map (w.objects.size + ·) := by
    rw [← State.map_rank hnodup, List.map_map]
    exact List.map_congr_left fun b hb => hheir hb
  refine (h.withObjects calls ?_ fun v hv => ?_).withCaptured _
  · rw [State.makings, List.length_map, ← hmap, List.map_map]
    exact ht.bequests_perm.symm.map _
  · obtain ⟨b, hb, rfl⟩ := List.mem_map.1 hv
    have hb := ht.bequests_perm.mem_iff.2 hb
    refine ⟨_, hheir hb, ?_⟩
    rw [State.makings, List.getElem?_map, State.getElem?_rank hnodup hb]
    rfl

theorem passed_value (hvalue : e.value = number v.origin) :
    (s.passed (w.objects.size + s.rank m (State.serials t.entries) e.key.serial) e).value =
      number (s.heir e.key.serial v).origin := by
  unfold State.passed
  cases hderives : s.derives e.key.serial with
  | true =>
    rw [State.heir_of_derives hderives, hnumber]
    rfl
  | false =>
    rw [State.heir_of_shares hderives]
    exact hvalue

theorem Mapped.inherit (h : Mapped number s t m) :
    Mapped number (s.bequeathed m)
      ((Table.empty t.capacity).endow (s.passedOn w.objects.size t.entries)) (s.inherited m) := by
  have hmapped : ∀ e ∈ t.entries, s.live e.key.serial = true → ∃ v, m e.key.serial = some v :=
    fun e he hlive => ((h.legible he).mapped hlive).imp fun v hv => hv.2.1
  have hmem {f : Entry Ref} := State.mem_passedOn (f := f) (k := w.objects.size) h.nodup_serials hmapped
  obtain ⟨hwf, -, hperm⟩ := h.whole.toWellFormed.endow
    (State.keys_passedOn_sublist s w.objects.size t.entries) fun f hf => by
      obtain ⟨e, he, -, rfl⟩ := hmem.1 hf
      rw [State.passed_hash, State.passed_key]
      exact h.whole.hash_eq e he
  refine ⟨⟨hwf, rfl⟩, fun f hf => ?_, fun n v hv => ?_, fun n hlive => ?_, fun n v hv => ?_⟩
  · obtain ⟨e, he, -, rfl⟩ := hmem.1 (hperm.mem_iff.1 hf)
    rw [State.passed_key]
    exact h.known e he
  · obtain ⟨-, u, hu, -⟩ := State.inherited_eq_some_iff.1 hv
    exact h.bounded n u hu
  · have hlive : s.live n = true := hlive
    rw [State.inherited, if_pos hlive]
    cases hm : m n with
    | none =>
      refine Table.valueOf?_eq_none_iff.2 fun f hf hkey => ?_
      obtain ⟨e, he, helive, rfl⟩ := hmem.1 (hperm.mem_iff.1 hf)
      rw [State.passed_key] at hkey
      obtain ⟨v, hv⟩ := hmapped e he helive
      rw [hkey] at hv
      simp [numbered, hm] at hv
    | some v =>
      obtain ⟨e, he, hkey, hvalue⟩ := h.exists_entry hlive hm
      have hserial : e.key.serial = n := congrArg Identity.serial hkey
      have hf := hperm.mem_iff.2 (hmem.2 ⟨e, he, hserial ▸ hlive, rfl⟩)
      rw [Table.valueOf?_eq_some hwf.nodup hf (by rw [State.passed_key, hkey]), passed_value hnumber hvalue, hserial]
      rfl
  · obtain ⟨hlive, u, hu, rfl⟩ := State.inherited_eq_some_iff.1 hv
    exact h.heir_mem hlive hu

end

/-! ## Capture and installation -/

/-- The numbers of the objects that derivations make in the next capture. -/
def birthNumber (s : State) (w : World) (n : Nat) : Nat :=
  match w.thread.inheritable.table?, s.maps .inheritable with
  | some t, some m => w.objects.size + s.rank m (State.serials t.entries) n
  | _, _ => n

theorem Matches.passOn_nil (h : Matches number s ms w) : Matches number (s.passOn []) ms w := by
  unfold State.passOn
  rw [List.append_nil]
  exact h.withCaptured _

theorem quiet_retainAll (rs : List Ref) : (rs.forM Action.retain).Quiet w := by
  induction rs generalizing w with
  | nil => exact .pure rfl
  | cons r rest ih => exact Yields.bind (Action.quiet_retain r) fun _ m hm => hm ▸ ih

theorem calls_derivings (s : State) (number : Origin → Nat) (bs : List (Nat × Value)) :
    callsOf (s.derivings number bs) = (bs.map s.derivationCall).map (Call.map number) := by
  unfold callsOf State.derivings
  rw [List.filterMap_map, List.map_map]
  induction bs with
  | nil => rfl
  | cons b rest ih =>
    rw [List.map_cons, ← ih]
    rfl

theorem yields_capture (h : Matches number s ms w.core)
    (hnumber : ∀ n, number (.derived s.captured n) = birthNumber s w.core n) :
    Yields (Inheritance.capture (userCode p)) w fun c w' =>
      CaptureMapped number s.capture.1 c s.capture.2.1 ∧ Went number s.capture.1 ms s.capture.2.2 w w' := by
  unfold State.capture
  rcases h.slot_cases .inheritable with ⟨hm, hslot⟩ | ⟨m, t, hm, hslot, ht⟩
  · rw [hm]
    refine (Action.yields_slot .inheritable).bind ?_
    rintro _ w' ⟨rfl, hw'⟩
    rw [hslot]
    exact .pure ⟨.none, (Went.quiet h.passOn_nil rfl).then_quiet hw'⟩
  · have hbirth : ∀ n, number (.derived s.captured n) =
        w.core.objects.size + s.rank m (State.serials t.entries) n := by
      intro n
      have htable : w.core.thread.inheritable.table? = some t := congrArg Slot.table? hslot
      rw [hnumber, birthNumber, htable, hm]
    rw [hm]
    refine (Action.yields_slot .inheritable).bind ?_
    rintro _ w₁ ⟨rfl, hw₁⟩
    rw [hslot]
    refine Yields.bind (quiet_retainAll _) fun _ w₂ hw₂ => ?_
    have hstart : w₂.core = w.core.grow [] [] := by rw [hw₂, hw₁, World.grow_nil]
    have hwalk := yields_walk (p := p) h (fun e he => ht.legible he) hstart (.empty t.capacity)
    refine Yields.bind (hwalk.onPanic _) ?_
    rintro _ w₃ ⟨rfl, hw₃⟩
    rw [hw₂, hw₁] at hw₃ ⊢
    have hstands : Matches number (s.bequeathed m) ms w₃.core := by
      rw [hw₃]
      exact h.bequeath hbirth ht _
    refine Yields.bind (Action.quiet_report rfl) fun _ w₄ hw₄ => ?_
    have htame : w₄.core.Tame := by
      rw [hw₄]
      exact hstands.tame
    refine Yields.bind (Action.quiet_releaseAll htame _) fun _ w' hw' => ?_
    have hcore : w'.core = w₃.core := hw'.trans hw₄
    have hinUse : w'.core.inUse = w.core.inUse := by rw [hcore, hw₃]; rfl
    refine .pure ⟨.some (ht.inherit hbirth), ?_, hinUse, ?_⟩
    · rw [hcore]
      exact hstands
    · rw [← w'.core_calls, hcore, hw₃, World.calls_grow, w.core_calls, calls_derivings]
      exact ((ht.bequests_perm.map _).map _).append_left _

theorem yields_install (h : Matches number s ms w.core) {c : Inheritance} {o : Option Map}
    (hc : CaptureMapped number s c o) :
    Yields (c.install (userCode p)) w fun _ w' => Went number (s.install o) ms [] w w' := by
  obtain ⟨table⟩ := c
  cases hc with
  | none => exact .pure (.quiet h rfl)
  | @some t m ht =>
    have hput : Matches number (s.install (some m)) ms (w.core.put .inheritable t) := h.put ht
    refine (Action.yields_slot .inheritable).bind ?_
    rintro _ w₁ ⟨rfl, hw₁⟩
    rcases h.slot_cases .inheritable with ⟨-, hslot⟩ | ⟨-, t₀, -, hslot, -⟩
    · rw [hslot]
      refine (Action.yields_setSlot .inheritable _).mono fun _ w' hw' => ?_
      rw [hw₁] at hw'
      exact .put hput hw'
    · rw [hslot]
      refine (Action.yields_setSlot .inheritable _).bind fun _ w₂ hw₂ => ?_
      rw [hw₁] at hw₂
      have hwent : Went number (s.install (some m)) ms [] w w₂ := .put hput hw₂
      refine (Action.quiet_releaseAll hwent.stands.tame _).mono fun _ w' hw' => ?_
      exact hwent.then_quiet hw'

/-! ## Steps with captures -/

theorem follows_capture (h : Matches number s ms w.core)
    (hnumber : ∀ n, number (.derived s.captured n) = birthNumber s w.core n) (name : String) :
    Follows number ms (Script.capture (userCode p) name)
      ({ s.capture.1 with captures := s.capture.1.captures.set name s.capture.2.1 },
        ⟨.done, s.capture.2.2⟩) w := by
  refine (yields_capture h hnumber).bind ?_
  rintro c w₁ ⟨hc, hwent⟩
  refine .read (.write ?_)
  have hset : Went number { s.capture.1 with captures := s.capture.1.captures.set name s.capture.2.1 } ms
      s.capture.2.2 w { w₁ with captures := w₁.captures.set name c } :=
    ⟨hwent.stands.setCapture name hc, hwent.inUse_eq, hwent.calls⟩
  have hquiet : ((w₁.captures.find? name).forM (Inheritance.discard (userCode p))).Quiet
      { w₁ with captures := w₁.captures.set name c } := by
    refine Action.quiet_forM (fun old m hm => ?_) _
    refine Action.quiet_releaseAll ?_ _
    rw [hm]
    exact hset.stands.tame
  exact hquiet.bind fun _ w' hw' => .pure ⟨.done, hset.then_quiet hw'⟩

theorem Follows.takeCapture (h : Matches number s ms w.core) (name : String) {missing : Reply} {missing' : Answer}
    (hmissing : Agrees number missing missing') {act : Inheritance → Action Reply}
    {act' : State → Option Map → State × Account Answer}
    (hact : ∀ c o, CaptureMapped number { s with captures := s.captures.erase name } c o → ∀ m,
      Matches number { s with captures := s.captures.erase name } ms m.core →
      Follows number ms (act c) (act' { s with captures := s.captures.erase name } o) m) :
    Follows number ms (Script.takeCapture name missing act) (s.takeCapture name missing' act') w := by
  refine .read ?_
  have hfind : Option.Rel (CaptureMapped number s) (w.captures.find? name) (s.captures.find? name) :=
    h.captures.find? name
  unfold State.takeCapture
  revert hfind
  cases w.captures.find? name <;> cases s.captures.find? name <;> rintro (hc | _)
  · exact .pure ⟨hmissing, .quiet h rfl⟩
  · refine .write (Yields.mono (hact _ _ (hc.later (.same rfl rfl rfl)) _ (h.eraseCapture name)) ?_)
    rintro reply w' ⟨hreply, hw'⟩
    exact ⟨hreply, hw'.stands, hw'.inUse_eq, hw'.calls⟩

theorem follows_install (h : Matches number s ms w.core) (name : String) :
    Follows number ms
      (Script.takeCapture name .nothing fun c => do
        c.install (userCode p)
        return .done)
      (s.takeCapture name .nothing fun s c => (s.install c, ⟨.done, []⟩)) w := by
  refine .takeCapture h name .nothing fun c o hc m hm => ?_
  exact (yields_install hm hc).bind fun _ w' hw' => .pure ⟨.done, hw'⟩

theorem follows_discardCapture (h : Matches number s ms w.core) (name : String) :
    Follows number ms
      (Script.takeCapture name (.flag false) fun c => do
        c.discard (userCode p)
        return .flag true)
      (s.takeCapture name (.flag false) fun s _ => (s, ⟨.flag true, []⟩)) w := by
  refine .takeCapture h name (.flag false) fun c o _ m hm => ?_
  refine Yields.bind (Action.quiet_releaseAll hm.tame _) fun _ w' hw' => ?_
  exact .pure ⟨.flag true, .quiet hm hw'⟩

end PerThread.Reference
