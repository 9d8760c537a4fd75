import PerThread.Proofs.Reference.Captures
import PerThread.Script.Run

/-!
# Threads keep up with the reference

A renaming is not known as a whole before the session is over: every capture adds the numbers of its own objects.
So what is said of a state on the way holds for all numberings that begin like the one known so far (`Extends`),
and a step may add to what is known (`Led`).
-/

namespace PerThread.Reference

open Exec (Yields)
open Script (userCode)

variable {names more : List (Nat → Nat)} {number : Origin → Nat} {s s' : State}
  {ms : List (Kind → Option Map)} {w w' : World} {p perform : Step → Action Reply} {observed : Bool} {α β : Type}

/-! ## Numberings -/

/-- The numbering agrees with `names` on the captures so far. -/
def Extends (names : List (Nat → Nat)) (number : Origin → Nat) : Prop :=
  ∃ more, number = Origin.number (names ++ more)

theorem extends_self (names : List (Nat → Nat)) : Extends names (Origin.number names) :=
  ⟨[], by rw [List.append_nil]⟩

theorem Extends.earlier (h : Extends (names ++ more) number) : Extends names number := by
  obtain ⟨rest, rfl⟩ := h
  exact ⟨more ++ rest, by rw [List.append_assoc]⟩

theorem Extends.derived {f : Nat → Nat} (h : Extends (names ++ [f]) number) (n : Nat) :
    number (.derived names.length n) = f n := by
  obtain ⟨rest, rfl⟩ := h
  simp [Origin.number]

/-- The state stands for that of the reference, under all numberings still possible, between two steps. -/
structure Stage (names : List (Nat → Nat)) (s : State) (ms : List (Kind → Option Map)) (w : World) : Prop where
  length_eq : names.length = s.captured
  stands : ∀ number, Extends names number → Matches number s ms w.core
  idle : w.inUse = []

/-- The computation ends, the reference has come to `s'`, and `good` holds under all numberings that are still
possible then. -/
def Led (names : List (Nat → Nat)) (s' : State) (x : Action α) (w : World)
    (good : (Origin → Nat) → α → World → Prop) : Prop :=
  Yields x w fun a w' => ∃ more, (names ++ more).length = s'.captured ∧
    ∀ number, Extends (names ++ more) number → good number a w'

theorem Led.of_yields {good : (Origin → Nat) → α → World → Prop} {x : Action α} (more : List (Nat → Nat))
    (hlen : (names ++ more).length = s'.captured)
    (h : ∀ number, Extends (names ++ more) number → Yields x w (good number)) : Led names s' x w good := by
  refine Yields.mono (Yields.forall_of _ (extends_self (names ++ more)) h) fun a w' ha => ?_
  exact ⟨more, hlen, ha⟩

/-- What takes no capture. -/
theorem Led.still {good : (Origin → Nat) → α → World → Prop} {x : Action α} (hlen : names.length = s'.captured)
    (h : ∀ number, Extends names number → Yields x w (good number)) : Led names s' x w good := by
  rw [← List.append_nil names] at hlen h
  exact .of_yields [] hlen fun number hnumber => h number hnumber

theorem Led.bind {good : (Origin → Nat) → α → World → Prop} {good' : (Origin → Nat) → β → World → Prop}
    {x : Action α} {f : α → Action β} (hx : Led names s x w good)
    (hf : ∀ a w' names', names'.length = s.captured → (∀ number, Extends names' number → Extends names number) →
      (∀ number, Extends names' number → good number a w') → Led names' s' (f a) w' good') :
    Led names s' (x >>= f) w good' := by
  refine Yields.bind hx ?_
  rintro a w' ⟨more, hlen, ha⟩
  refine Yields.mono (hf a w' (names ++ more) hlen (fun _ h => h.earlier) ha) ?_
  rintro b w'' ⟨more', hlen', hb⟩
  refine ⟨more ++ more', ?_, ?_⟩
  · rwa [← List.append_assoc]
  · rwa [← List.append_assoc]

/-! ## Steps without threads -/

theorem State.captured_withHandle {act : Handle → State × Account Answer}
    (h : ∀ g, (act g).1.captured = s.captured) (name : Int) : (s.withHandle name act).1.captured = s.captured := by
  unfold State.withHandle
  cases s.handles.find? name with
  | none => rfl
  | some g => exact h g

theorem State.captured_get (s : State) (g : Handle) : (s.get g).1.captured = s.captured := by
  unfold State.get
  cases s.read g <;> rfl

theorem State.captured_takeCapture {act : State → Option Map → State × Account Answer}
    (h : ∀ s o, (act s o).1.captured = s.captured) (name : String) (missing : Answer) :
    (s.takeCapture name missing act).1.captured = s.captured := by
  unfold State.takeCapture
  cases s.captures.find? name with
  | none => rfl
  | some c => exact h _ c

theorem State.captured_install (s : State) (o : Option Map) : (s.install o).captured = s.captured := by
  cases o <;> rfl

theorem State.captured_capture (s : State) : s.capture.1.captured = s.captured + 1 := by
  unfold State.capture
  cases s.maps .inheritable <;> rfl

/-- A step that takes no capture. -/
theorem Stage.follow (h : Stage names s ms w) {x : Action Reply} {out : State × Account Answer}
    (hcaptured : out.1.captured = s.captured)
    (hx : ∀ number, Matches number s ms w.core → Follows number ms x out w) :
    Led names out.1 x w fun number reply w' =>
      Agrees number reply out.2.answer ∧ Went number out.1 ms out.2.calls w w' := by
  refine .still ?_ fun number hnumber => hx number (h.stands number hnumber)
  rw [hcaptured]
  exact h.length_eq

/-- What takes one capture. -/
theorem Stage.capture (h : Stage names s ms w) {x : Action α} {good : (Origin → Nat) → α → World → Prop}
    (hcaptured : s'.captured = s.captured + 1)
    (hx : ∀ number, Matches number s ms w.core →
      (∀ n, number (.derived s.captured n) = birthNumber s w.core n) → Yields x w (good number)) :
    Led names s' x w good := by
  refine .of_yields [birthNumber s w.core] ?_ fun number hnumber => ?_
  · rw [List.length_append, hcaptured, h.length_eq]
    rfl
  · refine hx number (h.stands number hnumber.earlier) fun n => ?_
    rw [← h.length_eq]
    exact hnumber.derived n

theorem Went.stage (hlen : names.length = s'.captured) {calls : List (Call Origin)}
    (h : ∀ number, Extends names number → Went number s' ms calls w w') (hidle : w.inUse = []) :
    Stage names s' ms w' :=
  ⟨hlen, fun number hnumber => (h number hnumber).stands,
    (h _ (extends_self names)).inUse_eq.trans hidle⟩

/-- Performing the step keeps up with the reference. -/
def KeepsUp (perform : Step → Action Reply) (step : Step) : Prop :=
  ∀ names s ms w, Stage names s ms w → Led names (s.step step).1 (perform step) w fun number reply w' =>
    Agrees number reply (s.step step).2.answer ∧ Went number (s.step step).1 ms (s.step step).2.calls w w'

/-! ## A thread -/

/-- What a log of its own has caught. -/
theorem yields_withLog {x : Action α} {P : α → World → Prop} (h : Yields x { w with log := #[] } P) :
    Yields (Action.withLog x) w fun r w' => ∃ q, P r.1 q ∧ r.2 = q.log.toList ∧ w' = { q with log := w.log } := by
  refine .read (Yields.bind (P := fun _ q => q = { w with log := #[] }) (.update rfl) ?_)
  rintro _ _ rfl
  refine h.bind fun a q ha => .read ?_
  refine Yields.bind (P := fun _ w' => w' = { q with log := w.log }) (.update rfl) ?_
  rintro _ _ rfl
  exact .pure ⟨q, ha, rfl, rfl⟩

theorem quiet_geometry (kind : Kind) : (Action.geometry kind).Quiet w := by
  refine (Action.yields_slot kind).bind ?_
  rintro _ w' ⟨-, hw'⟩
  exact .pure hw'

theorem quiet_sizes (observed : Bool) : (Script.sizes observed).Quiet w := by
  cases observed with
  | false => exact .pure rfl
  | true =>
    refine Yields.bind (quiet_geometry .plain) fun _ w₁ hw₁ => ?_
    refine Yields.bind (quiet_geometry .inheritable) fun _ w₂ hw₂ => ?_
    exact .pure (hw₂.trans hw₁)

theorem led_reportStep {step : Step} (h : KeepsUp perform step) (hs : Stage names s ms w) :
    Led names (s.step step).1 (Script.reportStep observed perform step) w fun number r w' =>
      Agrees number r.reply (s.step step).2.answer ∧
        (callsOf r.log).Perm ((s.step step).2.calls.map (Call.map number)) ∧
        Went number (s.step step).1 ms [] w w' := by
  have hfresh : Stage names s ms { w with log := #[] } :=
    ⟨hs.length_eq, fun number hnumber => (hs.stands number hnumber).withLog #[], hs.idle⟩
  refine Yields.bind (yields_withLog (Yields.attempt (h _ _ _ _ hfresh))) ?_
  rintro ⟨_, _⟩ _ ⟨q, ⟨reply, rfl, more, hlen, hreply⟩, rfl, rfl⟩
  refine Yields.bind (quiet_sizes observed) fun _ w₁ hw₁ => ?_
  refine .pure ⟨more, hlen, fun number hnumber => ?_⟩
  obtain ⟨hagrees, hwent⟩ := hreply number hnumber
  have hback : Went number (s.step step).1 ms [] w { q with log := w.log } := by
    refine ⟨?_, hwent.inUse_eq, by simp [World.calls]⟩
    exact hwent.stands.withLog _
  refine ⟨hagrees, ?_, hback.then_quiet hw₁⟩
  have hcalls := hwent.calls
  simpa [World.calls, callsOf] using hcalls

/-- The steps of a thread, one after another. -/
theorem led_steps {steps : List Step} (h : ∀ step ∈ steps, KeepsUp perform step)
    (hs : Stage names s ms w) :
    Led names (s.steps steps).1 (steps.mapM (Script.reportStep observed perform)) w fun number reports w' =>
      AllAgree number reports (s.steps steps).2 ∧ Went number (s.steps steps).1 ms [] w w' := by
  induction steps generalizing names s w with
  | nil => exact .still hs.length_eq fun number hnumber => .pure ⟨.nil, .quiet (hs.stands number hnumber) rfl⟩
  | cons step rest ih =>
    obtain ⟨hstep, hrest⟩ := List.forall_mem_cons.1 h
    rw [List.mapM_cons]
    refine Led.bind (led_reportStep hstep hs) fun r w₁ names₁ hlen₁ hearlier₁ hr => ?_
    have hs₁ : Stage names₁ (s.step step).1 ms w₁ :=
      Went.stage hlen₁ (fun number hnumber => (hr number hnumber).2.2) hs.idle
    refine Led.bind (ih hrest hs₁) fun reports w₂ names₂ hlen₂ hearlier₂ hreports => ?_
    refine .still hlen₂ fun number hnumber => ?_
    obtain ⟨hagrees, hcalls, hwent₁⟩ := hr number (hearlier₂ number hnumber)
    obtain ⟨hall, hwent₂⟩ := hreports number hnumber
    exact .pure ⟨.cons hagrees hcalls hall, hwent₁.trans hwent₂⟩

/-! ## The end of a thread -/

/-- Nothing that counts is gone but tables of the running thread, and captures if `R` permits. -/
def Lost (R : Registry String Inheritance → Registry String Inheritance → Prop) (w w' : World) : Prop :=
  ∃ t captures, R w.captures captures ∧ w'.core = { w.core with thread := t, captures }

namespace Lost

variable {R : Registry String Inheritance → Registry String Inheritance → Prop} {w'' : World}

theorem of_core (h : w'.core = w.core) : Lost Eq w w' := ⟨w.core.thread, w.captures, rfl, h⟩

theorem captures_eq (h : Lost Eq w w') : w'.captures = w.captures := by
  obtain ⟨t, captures, hcaptures, hw'⟩ := h
  have hsame : w'.core.captures = w.captures := by rw [hw', hcaptures]
  exact hsame

theorem trans (h : Lost Eq w w') (h' : Lost R w' w'') : Lost R w w'' := by
  have hsame := h.captures_eq
  obtain ⟨t, captures, -, hw'⟩ := h
  obtain ⟨t', captures', hR, hw''⟩ := h'
  rw [hsame] at hR
  exact ⟨t', captures', hR, by rw [hw'', hw']⟩

theorem andThen (h : Lost R w w') (h' : Lost Eq w' w'') : Lost R w w'' := by
  obtain ⟨t, captures, hR, hw'⟩ := h
  obtain ⟨t', captures', hcaptures, hw''⟩ := h'
  have hsame : w'.core.captures = captures := by rw [hw']
  refine ⟨t', captures, hR, ?_⟩
  rw [hw'', hw', ← hsame, ← hcaptures]
  rfl

theorem tame (h : Lost R w w') (hw : w.core.Tame) : w'.core.Tame := by
  obtain ⟨t, captures, -, hw'⟩ := h
  rw [hw']
  exact hw

end Lost

/-- What happens at the end of a thread calls nothing. -/
theorem yields_closing {R : Registry String Inheritance → Registry String Inheritance → Prop} {x : Action Unit}
    (h : Yields x { w with log := #[] } fun _ q => Lost R { w with log := #[] } q) :
    Yields (Script.closing x) w fun log w' => callsOf log = [] ∧ Lost R w w' := by
  have hfresh : { w with log := #[] }.core = { w.core with log := #[] } := by simp [World.core]
  refine (yields_withLog h.noPanic).bind ?_
  rintro ⟨_, _⟩ w' ⟨q, ⟨t, captures, hR, hq⟩, rfl, rfl⟩
  rw [hfresh] at hq
  refine .pure ⟨?_, t, captures, hR, ?_⟩
  · have hcalls : q.core.calls = [] := by rw [hq]; rfl
    rw [q.core_calls] at hcalls
    exact hcalls
  · show { q.core with log := w.core.log } = _
    rw [hq]

theorem yields_releaseHolds (h : w.core.Tame) :
    Yields (Script.releaseHolds (userCode p)) w fun _ w' => Lost Eq w w' := by
  refine .read (.write ?_)
  have htame : { w with thread := { w.thread with holds := .empty } }.core.Tame := h
  exact (Action.quiet_releaseAll htame _).mono fun _ w' hw' => Lost.of_core hw'

theorem yields_destroy (h : w.core.Tame) (kind : Kind) :
    Yields (Thread.destroy (userCode p) kind) w fun _ w' => Lost Eq w w' := by
  refine (Action.yields_slot kind).bind ?_
  rintro slot w₁ ⟨-, hw₁⟩
  refine (Action.yields_setSlot kind .destroyed).bind fun _ w₂ hw₂ => ?_
  rw [hw₁] at hw₂
  have htame : w₂.core.Tame := by
    rw [hw₂]
    exact h
  refine (Action.quiet_releaseAll htame _).noPanic.mono fun _ w' hw' => ?_
  exact ⟨w.core.thread.setSlot kind .destroyed, w.captures, rfl, hw'.trans hw₂⟩

theorem yields_destroyNext (h : w.core.Tame) :
    Yields (Script.destroyNext (userCode p)) w fun o w' => (∀ b ∈ o, callsOf b.2 = []) ∧ Lost Eq w w' := by
  refine .read ?_
  cases w.thread.due? with
  | none => exact .pure ⟨nofun, .of_core rfl⟩
  | some kind =>
    have hfresh : { w with log := #[] }.core.Tame := h
    refine Yields.bind (yields_closing (yields_destroy hfresh kind)) ?_
    rintro log w' ⟨hlog, hw'⟩
    refine .pure ⟨?_, hw'⟩
    rintro _ ⟨⟩
    exact hlog

theorem yields_destroyTables (h : w.core.Tame) :
    Yields (Script.destroyTables (userCode p)) w fun logs w' =>
      callsOf logs.1 = [] ∧ callsOf logs.2 = [] ∧ Lost Eq w w' := by
  refine (yields_destroyNext h).bind ?_
  rintro first w₁ ⟨hfirst, hw₁⟩
  refine (yields_destroyNext (hw₁.tame h)).bind ?_
  rintro second w₂ ⟨hsecond, hw₂⟩
  have hsilent (kind : Kind) : callsOf (((first.toList ++ second.toList).lookup kind).getD []) = [] := by
    cases hlog : (first.toList ++ second.toList).lookup kind with
    | none => rfl
    | some log =>
      obtain ⟨before, after, hsplit, -⟩ := List.lookup_eq_some_iff.1 hlog
      have hmem : (kind, log) ∈ first.toList ++ second.toList := by
        rw [hsplit]
        exact List.mem_append_right _ List.mem_cons_self
      rcases List.mem_append.1 hmem with hmem | hmem
      · exact hfirst _ (Option.mem_toList.1 hmem)
      · exact hsecond _ (Option.mem_toList.1 hmem)
  exact .pure ⟨hsilent .plain, hsilent .inheritable, hw₁.trans hw₂⟩

/-- A thread from its first step to its end. -/
theorem led_runThread (observed : Bool) {steps : List Step} {beforeExit : Action α}
    {R : Registry String Inheritance → Registry String Inheritance → Prop} {good : α → Prop}
    (h : ∀ step ∈ steps, KeepsUp perform step)
    (hexit : ∀ q, q.core.Tame → q.captures.bindings.length = (s.steps steps).1.captures.bindings.length →
      Yields beforeExit q fun a q' => good a ∧ Lost R q q')
    (hs : Stage names s ms w) :
    Led names (s.steps steps).1 (Script.runThread (userCode p) observed perform beforeExit steps) w fun number r w' =>
      AllAgree number r.1.steps (s.steps steps).2 ∧
        callsOf (r.1.holds ++ r.1.exitPlain ++ r.1.exitInheritable) = [] ∧ good r.2 ∧
        ∃ q, Went number (s.steps steps).1 ms [] w q ∧ Lost R q w' := by
  refine Led.bind (led_steps h hs) fun reports w₁ names₁ hlen₁ hearlier₁ hreports => ?_
  refine .still hlen₁ fun number hnumber => ?_
  obtain ⟨hall, hwent⟩ := hreports number hnumber
  have htame := hwent.stands.tame
  have hfresh : { w₁ with log := #[] }.core.Tame := htame
  refine (yields_closing (yields_releaseHolds hfresh)).bind ?_
  rintro holds w₂ ⟨hholds, hw₂⟩
  have hcount : w₂.captures.bindings.length = (s.steps steps).1.captures.bindings.length := by
    rw [hw₂.captures_eq]
    exact hwent.stands.captures.length_eq
  refine (hexit w₂ (hw₂.tame htame) hcount).bind ?_
  rintro a w₃ ⟨ha, hw₃⟩
  refine (yields_destroyTables (hw₃.tame (hw₂.tame htame))).bind ?_
  rintro ⟨exitPlain, exitInheritable⟩ w' ⟨hplain, hinheritable, hw'⟩
  refine .pure ⟨hall, ?_, ha, w₁, hwent, (hw₂.trans hw₃).andThen hw'⟩
  unfold callsOf at hholds hplain hinheritable ⊢
  rw [List.filterMap_append, List.filterMap_append, hholds, hplain, hinheritable]
  rfl

/-! ## Spawning -/

/-- The thread that waited last goes on, after a thread has ended. -/
theorem Matches.goOn {maps : Kind → Option Map} {q : World} (h : Matches number s (maps :: ms) q.core)
    (hq : Lost Eq q w) :
    ∃ t rest, w.waiting = t :: rest ∧
      Matches number (s.leave maps) ms { w with thread := t, waiting := rest }.core := by
  obtain ⟨t', captures, rfl, hw⟩ := hq
  obtain ⟨t, rest, hwaiting, hleave⟩ := h.leave
  have hcore : w.core.waiting = t :: rest := by rw [hw]; exact hwaiting
  obtain ⟨t₀, rest₀, hw₀, ht₀, hrest₀⟩ := List.map_eq_cons_iff.1 hcore
  refine ⟨t₀, rest₀, hw₀, ?_⟩
  show Matches number (s.leave maps) ms { w.core with thread := t₀.core, waiting := rest₀.map Thread.core }
  rw [hw, ht₀, hrest₀]
  exact hleave

/-- A new thread runs, and the others wait. -/
abbrev entered (w : World) : World := { w with waiting := w.thread :: w.waiting, thread := .start }

/-- A new thread from what it inherits to its end. -/
theorem led_body {steps : List Step} (h : ∀ step ∈ steps, KeepsUp perform step)
    (hs : Stage names s ms w) {c : Inheritance} {o : Option Map}
    (hc : ∀ number, Extends names number → CaptureMapped number s c o) :
    Led names ((s.enter o).steps steps).1
      (do
        c.install (userCode p)
        return (← Script.runThread (userCode p) observed perform (pure ()) steps).1) (entered w) fun number r w' =>
      AllAgree number r.steps ((s.enter o).steps steps).2 ∧
        callsOf (r.holds ++ r.exitPlain ++ r.exitInheritable) = [] ∧
        ∃ q, Went number ((s.enter o).steps steps).1 (s.maps :: ms) [] (entered w) q ∧ Lost Eq q w' := by
  have hinstall : Led names (s.enter o) (c.install (userCode p)) (entered w) fun number _ w' =>
      Went number (s.enter o) (s.maps :: ms) [] (entered w) w' := by
    have hcaptured : (s.enter o).captured = s.captured := State.captured_install _ o
    refine .still (hs.length_eq.trans hcaptured.symm) fun number hnumber => ?_
    exact yields_install (hs.stands number hnumber).enter ((hc number hnumber).later (.same rfl rfl rfl))
  refine Led.bind hinstall fun _ w₁ names₁ hlen₁ _ hw₁ => ?_
  have hs₁ : Stage names₁ (s.enter o) (s.maps :: ms) w₁ := Went.stage hlen₁ hw₁ hs.idle
  have hexit (q : World) : Yields (pure ()) q fun _ q' => True ∧ Lost Eq q q' := .pure ⟨trivial, .of_core rfl⟩
  have hthread := led_runThread (p := p) observed h (fun q _ _ => hexit q) hs₁
  refine Led.bind hthread fun r w₂ names₂ hlen₂ hearlier₂ hr => ?_
  refine .still hlen₂ fun number hnumber => ?_
  obtain ⟨hall, hsilent, -, q, hq, hlost⟩ := hr number hnumber
  exact .pure ⟨hall, hsilent, q, (hw₁ number (hearlier₂ number hnumber)).trans hq, hlost⟩

theorem led_thread {steps : List Step} (h : ∀ step ∈ steps, KeepsUp perform step)
    (hs : Stage names s ms w) {c : Inheritance} {o : Option Map}
    (hc : ∀ number, Extends names number → CaptureMapped number s c o) :
    Led names ((s.enter o).steps steps).1
      (Thread.run do
        c.install (userCode p)
        return (← Script.runThread (userCode p) observed perform (pure ()) steps).1) w fun number r w' =>
      AllAgree number r.steps ((s.enter o).steps steps).2 ∧
        callsOf (r.holds ++ r.exitPlain ++ r.exitInheritable) = [] ∧
        Went number (((s.enter o).steps steps).1.leave s.maps) ms [] w w' := by
  refine Yields.bind (P := fun _ m => m = entered w) (.update rfl) ?_
  rintro _ _ rfl
  refine Led.bind (led_body h hs hc) fun r w₁ names₁ hlen₁ _ hr => ?_
  refine .still hlen₁ fun number hnumber => ?_
  obtain ⟨hall, hsilent, q, hq, hlost⟩ := hr number hnumber
  obtain ⟨t, rest, hwaiting, hstands⟩ := hq.stands.goOn hlost
  obtain ⟨t', captures, -, hcore⟩ := hlost
  have hinUse : w₁.core.inUse = q.inUse := by rw [hcore]; rfl
  have hcalls : w₁.core.calls = q.core.calls := by rw [hcore]; rfl
  rw [w₁.core_calls, q.core_calls] at hcalls
  have hback : Went number (((s.enter o).steps steps).1.leave s.maps) ms [] w
      { w₁ with thread := t, waiting := rest } :=
    ⟨hstands, hinUse.trans hq.inUse_eq, hcalls ▸ hq.calls⟩
  refine Yields.bind (P := fun _ m => m = { w₁ with thread := t, waiting := rest }) (.update ?_) ?_
  · rw [hwaiting]
  · rintro _ _ rfl
    exact .pure ⟨hall, hsilent, hback⟩

/-- A thread that inherits what `x` comes to. -/
theorem led_heir {steps : List Step} (h : ∀ step ∈ steps, KeepsUp perform step)
    (hidle : w.inUse = []) {x : Action Inheritance} {o : Option Map} {calls : List (Call Origin)}
    (hx : Led names s x w fun number c w' => CaptureMapped number s c o ∧ Went number s ms calls w w')
    (name : Option String) :
    Led names ((s.enter o).steps steps).1
      (do
        let inherited ← x
        let r ← Thread.run do
          inherited.install (userCode p)
          return (← Script.runThread (userCode p) observed perform (pure ()) steps).1
        return .thread name r) w fun number reply w' =>
      Agrees number reply (.thread name ((s.enter o).steps steps).2) ∧
        Went number (((s.enter o).steps steps).1.leave s.maps) ms calls w w' := by
  refine Led.bind hx fun c w₁ names₁ hlen₁ _ hc => ?_
  have hs₁ : Stage names₁ s ms w₁ := Went.stage hlen₁ (fun number hnumber => (hc number hnumber).2) hidle
  refine Led.bind (led_thread h hs₁ fun number hnumber => (hc number hnumber).1) ?_
  intro r w₂ names₂ hlen₂ hearlier₂ hr
  refine .still hlen₂ fun number hnumber => ?_
  obtain ⟨hall, hsilent, hwent⟩ := hr number hnumber
  have hwent' := (hc number (hearlier₂ number hnumber)).2.trans hwent
  rw [List.append_nil] at hwent'
  exact .pure ⟨.thread name hall hsilent, hwent'⟩

theorem led_spawn {steps : List Step} (h : ∀ step ∈ steps, KeepsUp perform step)
    (hs : Stage names s ms w) (how : Spawn) :
    Led names (s.step (.spawn how steps)).1
      (Script.spawn (userCode p)
        (fun steps => return (← Script.runThread (userCode p) observed perform (pure ()) steps).1) how steps) w
      fun number reply w' => Agrees number reply (s.step (.spawn how steps)).2.answer ∧
        Went number (s.step (.spawn how steps)).1 ms (s.step (.spawn how steps)).2.calls w w' := by
  have hnothing : Led names s (pure Inheritance.nothing) w fun number c w' =>
      CaptureMapped number s c none ∧ Went number s ms [] w w' :=
    .still hs.length_eq fun number hnumber => .pure ⟨.none, .quiet (hs.stands number hnumber) rfl⟩
  have hcapture : Led names s.capture.1 (Inheritance.capture (userCode p)) w fun number c w' =>
      CaptureMapped number s.capture.1 c s.capture.2.1 ∧ Went number s.capture.1 ms s.capture.2.2 w w' :=
    hs.capture s.captured_capture fun number h hnumber => yields_capture h hnumber
  cases how with
  | plain => exact led_heir h hs.idle hnothing none
  | inheriting => exact led_heir h hs.idle hcapture none
  | named name => exact led_heir h hs.idle hcapture (some name)

/-! ## All steps -/

theorem keepsUp_perform (observed : Bool) (depth : Nat) (step : Step) (h : Covered depth step) :
    KeepsUp (Script.performWithin observed depth false) step := by
  induction depth generalizing step with
  | zero => simp [Covered] at h
  | succ depth ih =>
    intro names s ms w hs
    have hw := hs.idle
    cases step with
    | make name kind how =>
      have hquiet : ∀ recipe, Script.recipeOf kind how = .ok recipe → Quiet recipe := h
      refine hs.follow ?_ fun number h => follows_make h hw name how hquiet
      rw [State.step]
      cases Script.recipeOf kind how <;> rfl
    | discard name => exact hs.follow rfl fun number h => follows_discard h hw name
    | duplicate name target =>
      refine hs.follow (State.captured_withHandle ?_ name) fun number h => follows_duplicate h hw name target
      exact fun _ => rfl
    | get name =>
      refine hs.follow (State.captured_withHandle s.captured_get name) fun number h => ?_
      exact .withHandle h name fun g hg m hm => follows_get hm hg
    | tryGet name =>
      refine hs.follow (State.captured_withHandle ?_ name) fun number h => ?_
      · exact fun _ => rfl
      · exact .withHandle h name fun g hg m hm => follows_tryGet hm hg
    | set name datum onDestroy =>
      obtain rfl : onDestroy = [] := h
      refine hs.follow (State.captured_withHandle ?_ name) fun number h => ?_
      · exact fun _ => rfl
      · exact .withHandle h name fun g hg m hm => follows_set hm hg datum
    | remove name =>
      refine hs.follow (State.captured_withHandle ?_ name) fun number h => ?_
      · exact fun _ => rfl
      · exact .withHandle h name fun g hg m hm => follows_remove hm hg
    | capture name =>
      exact hs.capture s.captured_capture fun number h hnumber => follows_capture h hnumber name
    | install name =>
      refine hs.follow (State.captured_takeCapture ?_ name _) fun number h => follows_install h name
      exact fun s o => s.captured_install o
    | discardCapture name =>
      refine hs.follow (State.captured_takeCapture ?_ name _) fun number h => follows_discardCapture h name
      exact fun s o => rfl
    | spawn how steps => exact led_spawn (fun step hstep => ih step (h step hstep)) hs how
    | _ => exact absurd h (by simp [Covered])

end PerThread.Reference
