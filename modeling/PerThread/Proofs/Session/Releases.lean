import PerThread.Action

/-!
# Letting references go

`Releases u rs w starts m w'` tells how the references `rs` are let go of, one after another and in this order: each
is counted down, and the value behind it ends if that was its last one. `starts` lists the values that ended, each
with the state in which its end began. The first panic that comes up is remembered as `m`, and the remaining
references are let go of all the same; a second one would abort, so there is no such course of events here.

This is exactly what `Action.releaseAll` does (`releaseAll_eq_iff`). Between the references no other state is
touched, so the first value to end finds the state as it was at the start, but for the counts (`Releases.first_start`).
-/

namespace PerThread

def World.letGo (w : World) (r : Ref) : World := w.recount r (· - 1)

/-- An end with a result, or with a panic. -/
def Exec.ending {σ : Type} (m : Option String) (s : σ) : EStateM.Result Interrupt σ Unit :=
  m.elim (.ok () s) fun message => .error (.panic message) s

inductive Releases (u : UserCode) :
    List Ref → World → List (Ref × World) → Option String → World → Prop
  | done (w : World) : Releases u [] w [] none w
  /-- The value has another owner. -/
  | kept {r : Ref} {rest : List Ref} {w w' : World} {starts : List (Ref × World)} {m : Option String}
      (howned : ((w.letGo r).object r).refs ≠ 0) (hrest : Releases u rest (w.letGo r) starts m w') :
      Releases u (r :: rest) w starts m w'
  | ended {r : Ref} {rest : List Ref} {w q w' : World} {starts : List (Ref × World)} {m : Option String}
      (hlast : ((w.letGo r).object r).refs = 0) (hend : u.finalize r (w.letGo r) = .ok () q)
      (hrest : Releases u rest q starts m w') :
      Releases u (r :: rest) w ((r, w.letGo r) :: starts) m w'
  | panicked {r : Ref} {rest : List Ref} {w q w' : World} {starts : List (Ref × World)} {message : String}
      (hlast : ((w.letGo r).object r).refs = 0) (hend : u.finalize r (w.letGo r) = .error (.panic message) q)
      (hrest : Releases u rest q starts none w') :
      Releases u (r :: rest) w ((r, w.letGo r) :: starts) (some message) w'

variable {u : UserCode} {w w' : World} {r : Ref} {rs : List Ref} {starts : List (Ref × World)} {m : Option String}

namespace Action

theorem release_run (u : UserCode) (r : Ref) (w : World) :
    release u r w =
      if ((w.letGo r).object r).refs = 0 then u.finalize r (w.letGo r) else .ok () (w.letGo r) := by
  show (if ((w.letGo r).object r).refs = 0 then u.finalize r else pure () : Action Unit) (w.letGo r) = _
  split <;> rfl

theorem releaseAll_cons_ok {rest : List Ref} {q : World} (h : release u r w = .ok () q) :
    releaseAll u (r :: rest) w = releaseAll u rest q := by
  show Exec.ensuring (release u r) (releaseAll u rest) w = _
  rw [Exec.ensuring_run, h]
  show EStateM.bind (releaseAll u rest) _ q = _
  unfold EStateM.bind
  rcases releaseAll u rest q with ⟨_, q'⟩ | ⟨i, q'⟩ <;> rfl

theorem releaseAll_cons_panic {rest : List Ref} {q : World} {message : String}
    (h : release u r w = .error (.panic message) q) :
    releaseAll u (r :: rest) w = Exec.resume message (releaseAll u rest) q := by
  show Exec.ensuring (release u r) (releaseAll u rest) w = _
  rw [Exec.ensuring_run, h]

theorem releaseAll_cons_abort {rest : List Ref} {q : World} (h : release u r w = .error .abort q) :
    releaseAll u (r :: rest) w = .error .abort q := by
  show Exec.ensuring (release u r) (releaseAll u rest) w = _
  rw [Exec.ensuring_run, h]

/-- A list of one reference is no more than that reference. -/
theorem releaseAll_single (u : UserCode) (r : Ref) : releaseAll u [r] = release u r := by
  funext w
  show Exec.ensuring (release u r) (pure ()) w = _
  rw [Exec.ensuring_run]
  rcases release u r w with ⟨_, q⟩ | ⟨_ | _, q⟩ <;> rfl

theorem releaseAll_of_releases (h : Releases u rs w starts m w') : releaseAll u rs w = Exec.ending m w' := by
  induction h with
  | done w => rfl
  | @kept r rest w w' starts m howned hrest ih =>
    rw [← ih]
    refine releaseAll_cons_ok ?_
    rw [release_run, if_neg howned]
  | @ended r rest w q w' starts m hlast hend hrest ih =>
    rw [← ih]
    refine releaseAll_cons_ok ?_
    rw [release_run, if_pos hlast, hend]
  | @panicked r rest w q w' starts message hlast hend hrest ih =>
    have hpanic : release u r w = .error (.panic message) q := by rw [release_run, if_pos hlast, hend]
    rw [releaseAll_cons_panic hpanic, Exec.resume_run, ih]
    rfl

theorem releases_of_releaseAll (h : releaseAll u rs w = Exec.ending m w') :
    ∃ starts, Releases u rs w starts m w' := by
  induction rs generalizing w m with
  | nil =>
    cases m with
    | none =>
      cases h
      exact ⟨[], .done _⟩
    | some message => cases h
  | cons r rest ih =>
    by_cases hlast : ((w.letGo r).object r).refs = 0
    · have hrun := release_run u r w
      rw [if_pos hlast] at hrun
      rcases hend : u.finalize r (w.letGo r) with ⟨_, q⟩ | ⟨message | _, q⟩
      · rw [releaseAll_cons_ok (hrun.trans hend)] at h
        obtain ⟨starts, hrest⟩ := ih h
        exact ⟨_, .ended hlast hend hrest⟩
      · -- after a panic, the rest must come to its end for there to be an outcome
        rw [releaseAll_cons_panic (hrun.trans hend), Exec.resume_run] at h
        rcases hrest : releaseAll u rest q with ⟨_, q'⟩ | ⟨i, q'⟩
        · rw [hrest] at h
          cases m with
          | none => cases h
          | some other =>
            cases h
            obtain ⟨starts, hrest⟩ := ih (m := none) hrest
            exact ⟨_, .panicked hlast hend hrest⟩
        · rw [hrest] at h
          cases m <;> cases h
      · rw [releaseAll_cons_abort (hrun.trans hend)] at h
        cases m <;> cases h
    · have hrun := release_run u r w
      rw [if_neg hlast] at hrun
      rw [releaseAll_cons_ok hrun] at h
      obtain ⟨starts, hrest⟩ := ih h
      exact ⟨starts, .kept hlast hrest⟩

theorem releaseAll_eq_iff : releaseAll u rs w = Exec.ending m w' ↔ ∃ starts, Releases u rs w starts m w' :=
  ⟨releases_of_releaseAll, fun ⟨_, h⟩ => releaseAll_of_releases h⟩

theorem release_eq_iff : release u r w = Exec.ending m w' ↔ ∃ starts, Releases u [r] w starts m w' := by
  rw [← releaseAll_single]
  exact releaseAll_eq_iff

end Action

/-! ## The first end -/

/-- Counting down changes nothing but the counts. -/
theorem World.foldl_letGo (w : World) (rs : List Ref) : rs.foldl letGo w = { w with objects := (rs.foldl letGo w).objects } := by
  induction rs generalizing w with
  | nil => rfl
  | cons r rest ih =>
    rw [List.foldl_cons, ih (w.letGo r)]
    rfl

namespace Releases

/-- Up to the first value that ends, references are counted down and nothing else happens. -/
theorem first_start (h : Releases u rs w starts m w') {s : Ref × World} (hs : s ∈ starts.head?) :
    ∃ before after, rs = before ++ s.1 :: after ∧ s.2 = (before ++ [s.1]).foldl World.letGo w := by
  induction h with
  | done w => cases hs
  | @kept r rest w w' starts m howned hrest ih =>
    obtain ⟨before, after, rfl, hstate⟩ := ih hs
    exact ⟨r :: before, after, rfl, hstate⟩
  | @ended r rest w q w' starts m hlast hend hrest ih =>
    cases hs
    exact ⟨[], rest, rfl, rfl⟩
  | @panicked r rest w q w' starts message hlast hend hrest ih =>
    cases hs
    exact ⟨[], rest, rfl, rfl⟩

/-- If no value ends, then references are counted down and nothing else happens. -/
theorem of_no_start (h : Releases u rs w [] m w') : m = none ∧ w' = rs.foldl World.letGo w := by
  induction rs generalizing w with
  | nil =>
    cases h
    exact ⟨rfl, rfl⟩
  | cons r rest ih =>
    cases h with
    | kept howned hrest => exact ih hrest

end Releases

end PerThread
