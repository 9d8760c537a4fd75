import PerThread.Exec

/-!
# Programs that do the same

`Alike I P x y` compares two programs on the states where an invariant `I` holds: from there `y` does exactly
what `x` does, the invariant holds again when they end or panic, and a result satisfies `P`. There is one rule
for each way to put programs together. After an abort nothing runs any more, so nothing is asked of it.
-/

namespace PerThread.Exec

variable {σ α β : Type} {I : σ → Prop} {P : α → Prop} {Q : β → Prop} {x y : Exec σ α}
  {c d : Exec σ Unit}

/-- What is asked of an outcome. -/
def Orderly (I : σ → Prop) (P : α → Prop) : EStateM.Result Interrupt σ α → Prop
  | .ok a s => P a ∧ I s
  | .error (.panic _) s => I s
  | .error .abort _ => True

def Alike (I : σ → Prop) (P : α → Prop) (x y : Exec σ α) : Prop :=
  ∀ s, I s → y s = x s ∧ Orderly I P (x s)

abbrev Anything {α : Type} : α → Prop := fun _ => True

namespace Alike

theorem pure {a : α} (h : P a) : Alike I P (Pure.pure a) (Pure.pure a) := by
  intro s hs
  exact ⟨rfl, h, hs⟩

theorem bind {f g : α → Exec σ β} (hx : Alike I P x y) (hf : ∀ a, P a → Alike I Q (f a) (g a)) :
    Alike I Q (x >>= f) (y >>= g) := by
  intro s hs
  obtain ⟨heq, ho⟩ := hx s hs
  show EStateM.bind y g s = EStateM.bind x f s ∧ Orderly I Q (EStateM.bind x f s)
  unfold EStateM.bind
  rw [heq]
  revert ho
  rcases x s with ⟨a, s'⟩ | ⟨message | _, s'⟩
  · exact fun ho => hf a ho.1 s' ho.2
  · exact fun ho => ⟨rfl, ho⟩
  · exact fun ho => ⟨rfl, ho⟩

theorem mono {P' : α → Prop} (h : Alike I P x y) (hP : ∀ a, P a → P' a) : Alike I P' x y := by
  intro s hs
  obtain ⟨heq, ho⟩ := h s hs
  refine ⟨heq, ?_⟩
  revert ho
  rcases x s with ⟨a, s'⟩ | ⟨message | _, s'⟩
  · exact fun ho => ⟨hP a ho.1, ho.2⟩
  · exact id
  · exact id

theorem andThen {f g : Exec σ β} (hx : Alike I Anything x y) (hf : Alike I Q f g) :
    Alike I Q (x >>= fun _ => f) (y >>= fun _ => g) :=
  hx.bind fun _ _ => hf

theorem returning {f : α → β} (hx : Alike I P x y) :
    Alike I Anything (do return f (← x)) (do return f (← y)) :=
  hx.bind fun _ _ => pure trivial

/-- Of a state that is read, the invariant is known. -/
theorem read : Alike I I get get := by
  intro s hs
  exact ⟨rfl, hs, hs⟩

theorem write {s : σ} (h : I s) : Alike I Anything (set s) (set s) := by
  intro _ _
  exact ⟨rfl, trivial, h⟩

theorem update {f : σ → σ} (h : ∀ s, I s → I (f s)) : Alike I Anything (modify f) (modify f) := by
  intro s hs
  exact ⟨rfl, trivial, h s hs⟩

theorem panic (message : String) : Alike I P (throw (.panic message)) (throw (.panic message)) := by
  intro s hs
  exact ⟨rfl, hs⟩

theorem abort : Alike I P (throw .abort) (throw .abort) := by
  intro s _
  exact ⟨rfl, trivial⟩

/-! ## Panics caught -/

theorem attempt (h : Alike I P x y) :
    Alike I (fun r => ∀ a, r = .ok a → P a) (Exec.attempt x) (Exec.attempt y) := by
  intro s hs
  obtain ⟨heq, ho⟩ := h s hs
  unfold Exec.attempt
  rw [heq]
  revert ho
  rcases x s with ⟨a, s'⟩ | ⟨message | _, s'⟩
  · rintro ⟨ha, hs'⟩
    refine ⟨rfl, ?_, hs'⟩
    rintro _ ⟨⟩
    exact ha
  · exact fun ho => ⟨rfl, nofun, ho⟩
  · exact fun _ => ⟨rfl, trivial⟩

theorem resume (message : String) (h : Alike I Anything c d) :
    Alike I P (Exec.resume message c) (Exec.resume message d) := by
  refine h.attempt.bind ?_
  rintro (_ | _) _
  · exact abort
  · exact panic message

theorem onPanic (h : Alike I P x y) (hc : Alike I Anything c d) :
    Alike I P (Exec.onPanic x c) (Exec.onPanic y d) := by
  refine h.attempt.bind ?_
  rintro (message | a) ha
  · exact hc.resume message
  · exact pure (ha a rfl)

theorem ensuring (h : Alike I P x y) (hc : Alike I Anything c d) :
    Alike I P (Exec.ensuring x c) (Exec.ensuring y d) := by
  refine h.attempt.bind ?_
  rintro (message | a) ha
  · exact hc.resume message
  · exact hc.bind fun _ _ => pure (ha a rfl)

theorem noPanic (h : Alike I P x y) : Alike I P (Exec.noPanic x) (Exec.noPanic y) := by
  refine h.attempt.bind ?_
  rintro (_ | a) ha
  · exact abort
  · exact pure (ha a rfl)

/-! ## One after another -/

section
variable {ι : Type} {f g : ι → Exec σ α}

theorem mapM (l : List ι) (h : ∀ i ∈ l, Alike I P (f i) (g i)) :
    Alike I Anything (l.mapM f) (l.mapM g) := by
  induction l with
  | nil => exact pure trivial
  | cons i rest ih =>
    rw [List.mapM_cons, List.mapM_cons]
    refine (h i List.mem_cons_self).bind fun _ _ => ?_
    refine (ih fun j hj => h j (List.mem_cons_of_mem i hj)).bind fun _ _ => ?_
    exact pure trivial

end

section
variable {ι : Type} {f g : ι → Exec σ PUnit}

theorem forM (l : List ι) (h : ∀ i ∈ l, Alike I Anything (f i) (g i)) :
    Alike I Anything (l.forM f) (l.forM g) := by
  induction l with
  | nil => exact pure trivial
  | cons i rest ih =>
    refine (h i List.mem_cons_self).bind fun _ _ => ?_
    exact ih fun j hj => h j (List.mem_cons_of_mem i hj)

theorem option_forM (o : Option ι) (h : ∀ i ∈ o, Alike I Anything (f i) (g i)) :
    Alike I Anything (o.forM f) (o.forM g) := by
  cases o with
  | none => exact pure trivial
  | some i => exact h i rfl

end

end Alike

end PerThread.Exec
