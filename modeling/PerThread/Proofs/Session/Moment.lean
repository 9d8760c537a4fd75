import PerThread.Proofs.Session.Steps

/-!
# The moments of a session

A look-out is asked before and after every call of an initializer, a derivation or a value's end, and before and
after every step of a thread or of such a call, however deep they are nested. It may stop the session, and then
leaves a state of its choice behind. A session with a look-out that never does that is a session
(`sessionWatched_none`). A state is a `Moment` of a session if some look-out stops the session there.

As long as all tables are whole, look-outs that agree on whole states lead to the same outcome. From this it
follows that all moments are whole: what a look-out makes of other states does not matter. This holds of all that
treats such look-outs alike (`Action.whole_of_occurs`), whatever user code it may run (`UserCode.Steady.whole_at_calls`).
-/

namespace PerThread

open Exec (Alike Anything)

variable {α : Type} {us : List Identity} {u v : UserCode}

/-- `x` with a look-out before and after it. -/
def Action.watched (look : World → Option World) (x : Action α) : Action α := fun w =>
  match look w with
  | some stop => .error .abort stop
  | none =>
    match x w with
    | .ok a w' => (look w').elim (.ok a w') (.error .abort)
    | .error (.panic message) w' => (look w').elim (.error (.panic message) w') (.error .abort)
    | .error .abort w' => .error .abort w'

/-- The state `w` occurs when `x` is run from `w₀`: a look-out stops it there, whatever is to remain. -/
def Action.Occurs (x : (World → Option World) → Action α) (w₀ w : World) : Prop :=
  ∃ sought : World → Bool, ∀ remains : World → World,
    x (fun w' => if sought w' then some (remains w') else none) w₀ = .error .abort (remains w)

def UserCode.watched (look : World → Option World) (u : UserCode) : UserCode where
  construct key := (u.construct key).watched look
  derive key parent := (u.derive key parent).watched look
  finalize r := (u.finalize r).watched look

namespace Script

def performWatched (observed : Bool) (look : World → Option World) : Nat → Bool → Step → Action Reply
  | 0, _, _ => throw .abort
  | depth + 1, inUserCode, step =>
    let u := (userCode (performWatched observed look depth true)).watched look
    let thread := fun steps =>
      return (← runThread u observed (performWatched observed look depth false) (pure ()) steps).1
    (perform u thread inUserCode step).watched look

def sessionWatched (observed : Bool) (look : World → Option World) (depth limit : Nat) (steps : List Step) :
    Action SessionReport := do
  let u := (userCode (performWatched observed look depth true)).watched look
  let (thread, captures) ←
    runThread u observed (performWatched observed look depth false) (closing (discardCaptures u limit)) steps
  return ⟨thread, captures⟩

/-- The state `w` occurs in a session. -/
def Moment (observed : Bool) (depth limit : Nat) (steps : List Step) (w : World) : Prop :=
  Action.Occurs (fun look => sessionWatched observed look depth limit steps) .start w

/-! ## A look-out that does nothing -/

theorem watched_none (x : Action α) : x.watched (fun _ => none) = x := by
  funext w
  unfold Action.watched
  rcases x w with ⟨a, w'⟩ | ⟨message | _, w'⟩ <;> rfl

theorem userCode_watched_none (u : UserCode) : u.watched (fun _ => none) = u := by
  simp only [UserCode.watched, watched_none]

theorem performWatched_none (observed : Bool) (depth : Nat) :
    performWatched observed (fun _ => none) depth = performWithin observed depth := by
  induction depth with
  | zero => rfl
  | succ depth ih =>
    funext inUserCode step
    simp only [performWatched, performWithin, watched_none, userCode_watched_none, ih]

theorem sessionWatched_none (observed : Bool) (depth limit : Nat) :
    sessionWatched observed (fun _ => none) depth limit = sessionWithin observed depth limit := by
  funext steps
  simp only [sessionWatched, sessionWithin, userCode_watched_none, performWatched_none]

end Script

/-! ## Look-outs that agree on whole states -/

section
variable {look look' : World → Option World} {P : α → Prop} {x y : Action α}

theorem Action.steady_watched (hlook : ∀ w, w.Whole → look' w = look w)
    (h : Alike (World.Calm us) P x y) :
    Alike (World.Calm us) P (x.watched look) (y.watched look') := by
  intro w hw
  obtain ⟨heq, ho⟩ := h w hw
  unfold Action.watched
  rw [hlook w hw.toWhole, heq]
  cases look w with
  | some stop => exact ⟨rfl, trivial⟩
  | none =>
    revert ho
    rcases x w with ⟨a, w'⟩ | ⟨message | _, w'⟩
    · rintro ⟨ha, hw'⟩
      simp only [hlook w' hw'.toWhole, true_and]
      cases look w' with
      | none => exact ⟨ha, hw'⟩
      | some stop => trivial
    · intro hw'
      simp only [hlook w' hw'.toWhole, true_and]
      cases look w' with
      | none => exact hw'
      | some stop => trivial
    · exact fun _ => ⟨rfl, trivial⟩

theorem UserCode.Steady.watched (hlook : ∀ w, w.Whole → look' w = look w) (h : u.Steady v) :
    (u.watched look).Steady (v.watched look') where
  construct us key := Action.steady_watched hlook (h.construct us key)
  derive us key parent := Action.steady_watched hlook (h.derive us key parent)
  finalize us r := Action.steady_watched hlook (h.finalize us r)

/-- What treats look-outs alike that agree on whole states comes across whole states only. -/
theorem Action.whole_of_occurs {x : (World → Option World) → Action α} {w₀ w : World}
    (hx : ∀ look look', (∀ w, w.Whole → look' w = look w) → Alike (World.Calm us) P (x look) (x look'))
    (hw₀ : w₀.Calm us) (h : Action.Occurs x w₀ w) : w.Whole := by
  classical
  obtain ⟨sought, hstop⟩ := h
  by_contra hw
  let one : World := .start
  let other : World := { World.start with nextCode := 1 }
  have hsame := (hx (fun w' => if sought w' then some one else none)
    (fun w' => if sought w' then some (if w'.Whole then one else other) else none)
    (fun w' hw' => by simp only [hw', if_true]) w₀ hw₀).1
  have hone := hstop fun _ => one
  have htwo := hstop fun w' => if w'.Whole then one else other
  rw [hone, htwo, if_neg hw] at hsame
  injection hsame with _ hstate
  exact absurd (congrArg World.nextCode hstate) (by decide)

/-- Whatever user code does that leaves whole what was whole: it starts and ends in whole states, in the course of any
operation that treats such user code alike. -/
theorem UserCode.Steady.whole_at_calls (hu : u.Steady u) {x : UserCode → Action α} {w₀ w : World}
    (hx : ∀ v v', UserCode.Steady v v' → Alike (World.Calm us) P (x v) (x v')) (hw₀ : w₀.Calm us)
    (h : Action.Occurs (fun look => x (u.watched look)) w₀ w) : w.Whole :=
  Action.whole_of_occurs (fun _ _ hlook => hx _ _ (hu.watched hlook)) hw₀ h

namespace Script

variable {observed : Bool} {depth limit : Nat} {steps : List Step} {w : World}

theorem steady_performWatched (hlook : ∀ w, w.Whole → look' w = look w) (observed : Bool) (depth : Nat)
    (inUserCode : Bool) (us : List Identity) (step : Step) :
    Alike (World.Calm us) Anything (performWatched observed look depth inUserCode step)
      (performWatched observed look' depth inUserCode step) := by
  induction depth generalizing inUserCode us step with
  | zero => exact .abort
  | succ depth ih =>
    have hu := (steady_userCode (ih true)).watched hlook
    refine Action.steady_watched hlook (steady_perform hu (fun us steps => ?_) inUserCode step)
    exact (steady_runThread hu observed (ih false us) (.pure trivial) steps).returning

theorem steady_sessionWatched (hlook : ∀ w, w.Whole → look' w = look w) (observed : Bool) (depth limit : Nat)
    (steps : List Step) :
    Alike (World.Calm us) Anything (sessionWatched observed look depth limit steps)
      (sessionWatched observed look' depth limit steps) := by
  have hu := (steady_userCode (steady_performWatched hlook observed depth true)).watched hlook
  have hclosing : Alike (World.Calm us) Anything (closing (discardCaptures _ limit))
      (closing (discardCaptures _ limit)) := steady_closing (steady_discardCaptures hu limit)
  have hrun := steady_runThread hu observed (steady_performWatched hlook observed depth false us) hclosing steps
  exact hrun.returning

/-- At every moment of every session, and so whenever user code starts or ends, all tables of all threads and
captures are well-formed and have nothing to give up. -/
theorem Moment.whole (h : Moment observed depth limit steps w) : w.Whole :=
  Action.whole_of_occurs (fun _ _ hlook => steady_sessionWatched hlook observed depth limit steps)
    ⟨World.whole_start, rfl⟩ h

/-- A thread with an inheritable value that gives a plain variable its first value, when it is destroyed itself. So the
plain table is made while the inheritable one is destroyed. -/
def latecomer : List Step :=
  [.make 0 .plain (.initial .blank), .make 1 .inheritable (.initial .blank), .set 1 .null [.set 0 .null [], .tryGet 0]]

theorem whole_of_latecomer :
    ∃ w : World, Moment false 3 1 latecomer w ∧ w.thread.inheritable.isDestroyed = true ∧
      (w.thread.plain.table?.map Table.len) = some 1 ∧ w.Whole := by
  have h : Moment false 3 1 latecomer _ := ⟨fun w => w.thread.plain.table?.isSome, fun remains => rfl⟩
  exact ⟨_, h, rfl, rfl, h.whole⟩

end Script

end

end PerThread
