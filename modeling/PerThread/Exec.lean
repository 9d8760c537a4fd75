/-!
# Computations that may panic

A computation works on a state and either ends with a result or is interrupted. What it did to the
state before an interruption stays done. A panic runs the cleanup of everything that was under way,
from the inside out, up to the place where it is caught. A second panic in the course of such a
cleanup cannot be caught at all: it aborts.
-/

namespace PerThread

/-- Why a computation has no result. -/
inductive Interrupt where
  /-- User code panicked with this message. -/
  | panic (message : String)
  /-- Nothing can go on. -/
  | abort
deriving DecidableEq, Repr

abbrev Exec (σ α : Type) := EStateM Interrupt σ α

namespace Exec

variable {σ α : Type}

/-- Catches a panic: its message stands in for the result. -/
def attempt (x : Exec σ α) : Exec σ (Except String α) := fun s =>
  match x s with
  | .ok a s => .ok (.ok a) s
  | .error (.panic message) s => .ok (.error message) s
  | .error .abort s => .error .abort s

/-- Goes on with the panic `message` after `cleanup`. A panic of the cleanup aborts. -/
def resume (message : String) (cleanup : Exec σ Unit) : Exec σ α := do
  match ← attempt cleanup with
  | .ok () => throw (.panic message)
  | .error _ => throw .abort

def onPanic (x : Exec σ α) (cleanup : Exec σ Unit) : Exec σ α := do
  match ← attempt x with
  | .ok a => pure a
  | .error message => resume message cleanup

/-- Runs `cleanup` after `x` in any case. -/
def ensuring (x : Exec σ α) (cleanup : Exec σ Unit) : Exec σ α := do
  match ← attempt x with
  | .ok a => do cleanup; pure a
  | .error message => resume message cleanup

/-- Runs a computation at a place where a panic aborts. -/
def noPanic (x : Exec σ α) : Exec σ α := do
  match ← attempt x with
  | .ok a => pure a
  | .error _ => throw .abort

/-! ## Outcomes -/

theorem bind_of_ok {β : Type} {x : Exec σ α} {f : α → Exec σ β} {s m : σ} {a : α} (h : x s = .ok a m) :
    (x >>= f) s = f a m := by
  change EStateM.bind x f s = f a m
  unfold EStateM.bind
  rw [h]

theorem bind_of_error {β : Type} {x : Exec σ α} {f : α → Exec σ β} {s s' : σ} {i : Interrupt}
    (h : x s = .error i s') : (x >>= f) s = .error i s' := by
  change EStateM.bind x f s = .error i s'
  unfold EStateM.bind
  rw [h]

theorem bind_ok {β : Type} {x : Exec σ α} {f : α → Exec σ β} {s s' : σ} {b : β}
    (h : (x >>= f) s = .ok b s') : ∃ a m, x s = .ok a m ∧ f a m = .ok b s' := by
  change EStateM.bind x f s = .ok b s' at h
  unfold EStateM.bind at h
  rcases hx : x s with ⟨a, m⟩ | ⟨i, m⟩
  · rw [hx] at h
    exact ⟨a, m, rfl, h⟩
  · rw [hx] at h
    cases h

theorem resume_run (message : String) (cleanup : Exec σ Unit) (s : σ) :
    (resume message cleanup : Exec σ α) s =
      match cleanup s with
      | .ok _ s' => .error (.panic message) s'
      | .error _ s' => .error .abort s' := by
  simp only [resume, bind, EStateM.bind, attempt]
  rcases cleanup s with ⟨_, s'⟩ | ⟨_ | _, s'⟩ <;> rfl

theorem onPanic_run (x : Exec σ α) (cleanup : Exec σ Unit) (s : σ) :
    onPanic x cleanup s =
      match x s with
      | .ok a s' => .ok a s'
      | .error (.panic message) s' => resume message cleanup s'
      | .error .abort s' => .error .abort s' := by
  simp only [onPanic, bind, EStateM.bind, attempt]
  rcases x s with ⟨a, s'⟩ | ⟨message | _, s'⟩ <;> rfl

/-- A result is that of the computation guarded. -/
theorem onPanic_ok {x : Exec σ α} {cleanup : Exec σ Unit} {s s' : σ} {a : α}
    (h : onPanic x cleanup s = .ok a s') : x s = .ok a s' := by
  rw [onPanic_run] at h
  rcases hx : x s with ⟨b, s₁⟩ | ⟨message | _, s₁⟩
  · rwa [hx] at h
  · rw [hx] at h
    simp only [resume_run] at h
    split at h <;> cases h
  · rw [hx] at h
    cases h

theorem noPanic_ok_iff {x : Exec σ α} {s s' : σ} {a : α} : noPanic x s = .ok a s' ↔ x s = .ok a s' := by
  simp only [noPanic, bind, EStateM.bind, attempt]
  rcases x s with ⟨b, s₁⟩ | ⟨_ | _, s₁⟩
  · exact Iff.rfl
  · exact ⟨nofun, nofun⟩
  · exact ⟨nofun, nofun⟩

theorem ensuring_run (x : Exec σ α) (cleanup : Exec σ Unit) (s : σ) :
    ensuring x cleanup s =
      match x s with
      | .ok a s' => (cleanup *> pure a : Exec σ α) s'
      | .error (.panic message) s' => resume message cleanup s'
      | .error .abort s' => .error .abort s' := by
  simp only [ensuring, bind, EStateM.bind, attempt]
  rcases x s with ⟨a, s'⟩ | ⟨message | _, s'⟩ <;> rfl

end Exec

end PerThread
