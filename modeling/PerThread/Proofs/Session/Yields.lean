import PerThread.Action

/-!
# Programs that come to their end

`Yields x s P`: from `s` the program `x` ends without a panic, and its result and last state satisfy `P`.
-/

namespace PerThread

namespace Exec

variable {σ α β : Type} {x : Exec σ α} {s : σ} {P : α → σ → Prop} {Q : β → σ → Prop}

def Yields (x : Exec σ α) (s : σ) (P : α → σ → Prop) : Prop := ∃ a s', x s = .ok a s' ∧ P a s'

namespace Yields

theorem pure {a : α} (h : P a s) : Yields (Pure.pure a) s P := ⟨a, s, rfl, h⟩

theorem mono {P' : α → σ → Prop} (h : Yields x s P) (hP : ∀ a s', P a s' → P' a s') : Yields x s P' := by
  obtain ⟨a, s', hrun, ha⟩ := h
  exact ⟨a, s', hrun, hP a s' ha⟩

theorem bind {f : α → Exec σ β} (hx : Yields x s P) (hf : ∀ a s', P a s' → Yields (f a) s' Q) :
    Yields (x >>= f) s Q := by
  obtain ⟨a, m, hrun, ha⟩ := hx
  obtain ⟨b, s', hrun', hb⟩ := hf a m ha
  refine ⟨b, s', ?_, hb⟩
  show EStateM.bind x f s = _
  unfold EStateM.bind
  rw [hrun]
  exact hrun'

/-- A computation that begins by looking at the state. -/
theorem read {f : σ → Exec σ β} (h : Yields (f s) s Q) : Yields (get >>= f) s Q := h

theorem write {s' : σ} {f : PUnit → Exec σ β} (h : Yields (f ⟨⟩) s' Q) : Yields (set s' >>= f) s Q := h

theorem update {f : σ → σ} {P : PUnit → σ → Prop} (h : P ⟨⟩ (f s)) : Yields (modify f) s P :=
  ⟨⟨⟩, f s, rfl, h⟩

/-- What ends with a result ends with one result. -/
theorem forall_of {ι : Type} {p : ι → Prop} {P : ι → α → σ → Prop} (i : ι) (hi : p i)
    (h : ∀ i, p i → Yields x s (P i)) : Yields x s fun a s' => ∀ i, p i → P i a s' := by
  obtain ⟨a, s', hrun, -⟩ := h i hi
  refine ⟨a, s', hrun, fun j hj => ?_⟩
  obtain ⟨b, m, hrun', hb⟩ := h j hj
  rw [hrun] at hrun'
  cases hrun'
  exact hb

theorem attempt (h : Yields x s P) : Yields (Exec.attempt x) s fun r s' => ∃ a, r = .ok a ∧ P a s' := by
  obtain ⟨a, s', hrun, ha⟩ := h
  refine ⟨.ok a, s', ?_, a, rfl, ha⟩
  unfold Exec.attempt
  rw [hrun]

/-- No cleanup is called for. -/
theorem onPanic (h : Yields x s P) (c : Exec σ Unit) : Yields (Exec.onPanic x c) s P := by
  obtain ⟨a, s', hrun, ha⟩ := h
  refine ⟨a, s', ?_, ha⟩
  rw [Exec.onPanic_run, hrun]

theorem ensuring {c : Exec σ Unit} {P' : α → σ → Prop} (h : Yields x s P)
    (hc : ∀ a m, P a m → Yields c m fun _ s' => P' a s') : Yields (Exec.ensuring x c) s P' := by
  obtain ⟨a, m, hrun, ha⟩ := h
  obtain ⟨_, s', hrun', ha'⟩ := hc a m ha
  refine ⟨a, s', ?_, ha'⟩
  have hend : (do c; Pure.pure a : Exec σ α) m = .ok a s' := by
    show EStateM.bind c _ m = _
    unfold EStateM.bind
    rw [hrun']
    rfl
  rw [Exec.ensuring_run, hrun]
  exact hend

theorem noPanic (h : Yields x s P) : Yields (Exec.noPanic x) s P := by
  refine h.attempt.bind ?_
  rintro _ m ⟨a, rfl, ha⟩
  exact pure ha

end Yields

end Exec

theorem Action.yields_holding {α : Type} {key : Identity} {x : Action α} {w : World} {P Q : α → World → Prop}
    (h : Exec.Yields x { w with inUse := key :: w.inUse } P)
    (hPQ : ∀ a w', P a w' → Q a { w' with inUse := w'.inUse.erase key }) :
    Exec.Yields (holding key x) w Q := by
  obtain ⟨a, w', hrun, ha⟩ := h
  refine ⟨a, _, ?_, hPQ a w' ha⟩
  rw [holding_run, hrun]

end PerThread
