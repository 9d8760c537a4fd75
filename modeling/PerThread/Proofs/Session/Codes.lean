import PerThread.Proofs.Session.Performing
import PerThread.Proofs.Spread

/-!
# The codes of a session

A session makes identities in many places, on any thread and in user code at any depth. All of them draw from one
counter, one code each, and nothing else draws: so the identity made after `n` others has the code that is drawn
after `n` others (`World.Numbered`). Of the elementary changes of a session only one makes an identity.
-/

namespace PerThread

open HashCode (nth)

variable {n : Nat} {w w' : World} {start : UInt32}

namespace World

/-- Identities are numbered in order of creation, and have the codes from `start` on, in this order. -/
structure Numbered (start : UInt32) (w : World) : Prop where
  identity_eq : ∀ n (key : Identity), (w.catalog.map Variable.identity)[n]? = some key → key = ⟨n, nth start n⟩
  nextCode_eq : w.nextCode = nth start w.catalog.size

theorem numbered_start (start : UInt32) : Numbered start { World.start with nextCode := start } where
  identity_eq _ _ h := by simp [World.start] at h
  nextCode_eq := (HashCode.nth_zero start).symm

/-- A new identity draws the next code, and all others stay as they are. -/
theorem Change.numbered (hc : w.Change n w') (h : w.Numbered start) : w'.Numbered start := by
  cases hc with
  | quiet hq =>
    have hsize : w'.catalog.size = w.catalog.size := by simpa using congrArg Array.size hq.identities_eq
    refine ⟨?_, ?_⟩
    · rw [hq.identities_eq]
      exact h.identity_eq
    · rw [hq.nextCode_eq, hsize]
      exact h.nextCode_eq
  | create name kind recipe =>
    refine ⟨?_, ?_⟩
    · intro i key hkey
      rw [Array.map_push, Array.getElem?_push, Array.size_map] at hkey
      by_cases hi : i = w.catalog.size
      · rw [if_pos hi] at hkey
        cases hkey
        rw [hi, h.nextCode_eq]
      · rw [if_neg hi] at hkey
        exact h.identity_eq i key hkey
    · show HashCode.next w.nextCode = nth start (w.catalog.push _).size
      rw [Array.size_push, HashCode.nth_succ, h.nextCode_eq]
  | _ => exact ⟨h.identity_eq, h.nextCode_eq⟩

theorem Course.numbered (hc : Course n w w') (h : w.Numbered start) : w'.Numbered start :=
  hc.preserves (fun _ _ hq => hq.numbered) h

theorem Numbered.of_variable (h : w.Numbered start) {v : Variable} (hv : w.catalog[n]? = some v) :
    v.identity = ⟨n, nth start n⟩ := by
  refine h.identity_eq n v.identity ?_
  rw [Array.getElem?_map, hv]
  rfl

end World

namespace Script

/-- A variable is made unless its builder finds fault, and then no code is drawn. -/
theorem make_run (name : Int) (kind : Kind) (how : Constructor Step) (w : World) :
    (∃ cause, recipeOf kind how = .error cause ∧ make name kind how w = .ok (.refused cause) w) ∨
    ∃ recipe w', recipeOf kind how = .ok recipe ∧ make name kind how w = .ok .done w' ∧
      w'.catalog = w.catalog.push ⟨⟨w.catalog.size, w.nextCode⟩, kind, name, recipe, 0⟩ ∧
      w'.nextCode = HashCode.next w.nextCode := by
  unfold make
  cases hrecipe : recipeOf kind how with
  | error cause => exact Or.inl ⟨cause, rfl, rfl⟩
  | ok recipe => exact Or.inr ⟨recipe, _, rfl, rfl, rfl, rfl⟩

/-- However far a session has come, the variable made after `n` others has the `n`-th code from where the counter
stood at the start; only what is made draws a code. Codes spread over every table whose capacity is a power of two:
as many variables as it has slots, made one after another, have different homes. -/
theorem session_codes {observed : Bool} {sought : World → Bool} {depth limit : Nat} {steps : List Step} {w : World}
    (h : Exec.Ends (sessionWatched observed (halt sought) depth limit steps) { World.start with nextCode := start } w) :
    (∀ n v, w.catalog[n]? = some v → v.identity.serial = n ∧
      v.identity.hash = start + UInt32.ofNat n * 0x61c88647) ∧
    w.nextCode = start + UInt32.ofNat w.catalog.size * 0x61c88647 ∧
    (∀ name kind how q,
      (∃ cause, recipeOf kind how = .error cause ∧ make name kind how q = .ok (.refused cause) q) ∨
      ∃ recipe q', recipeOf kind how = .ok recipe ∧ make name kind how q = .ok .done q' ∧
        q'.catalog = q.catalog.push ⟨⟨q.catalog.size, q.nextCode⟩, kind, name, recipe, 0⟩ ∧
        q'.nextCode = q.nextCode + 0x61c88647) ∧
    (∀ k ≤ 32, ∀ t : Table Ref, t.capacity = 2 ^ k → ∀ m i j, i < 2 ^ k → j < 2 ^ k →
      t.slots.home (start + UInt32.ofNat (m + i) * 0x61c88647) =
        t.slots.home (start + UInt32.ofNat (m + j) * 0x61c88647) → i = j) ∧
    ∀ i j v v', i < 2 ^ 32 → j < 2 ^ 32 → w.catalog[i]? = some v → w.catalog[j]? = some v' →
      v.identity.hash = v'.identity.hash → i = j := by
  have hgood : World.Good { World.start with nextCode := start } :=
    ⟨⟨World.good_start.thread, World.good_start.waiting, World.good_start.captures⟩,
      fun r hr => World.good_start.bounded r (hr.of_eq rfl rfl rfl)⟩
  have hnumbered := (course_session hgood h).numbered (World.numbered_start start)
  refine ⟨?_, hnumbered.nextCode_eq, make_run, ?_, ?_⟩
  · intro n v hv
    rw [hnumbered.of_variable hv]
    exact ⟨rfl, rfl⟩
  · intro k hk t hcap m i j hi hj hhome
    exact HashCode.home_spread hk hcap hi hj hhome
  · intro i j v v' hi hj hv hv' hhash
    rw [hnumbered.of_variable hv, hnumbered.of_variable hv'] at hhash
    exact HashCode.nth_inj hi hj hhash

/-- Three builds, of which the second finds fault and the third takes place on a thread of its own. -/
def builds : List Step :=
  [.make 0 .plain (.initial .blank), .make 1 .plain (.builder ⟨none, none⟩),
    .spawn .plain [.make 2 .inheritable (.builder ⟨some .blank, none⟩)]]

theorem codes_of_builds :
    ∃ w v, Exec.Ends (sessionWatched false (halt fun _ => false) 2 1 builds)
        { World.start with nextCode := 0xf0000000 } w ∧
      w.catalog.size = 2 ∧ w.catalog[1]? = some v ∧ v.identity.hash = 0x51c88647 := by
  have hrun : sessionWatched false (halt fun _ => false) 2 1 builds { World.start with nextCode := 0xf0000000 } =
      .ok _ _ := rfl
  obtain ⟨hcodes, -⟩ := session_codes (Or.inl ⟨_, hrun⟩)
  exact ⟨_, _, Or.inl ⟨_, hrun⟩, rfl, rfl, (hcodes 1 _ rfl).2.trans (by decide)⟩

end Script

end PerThread
