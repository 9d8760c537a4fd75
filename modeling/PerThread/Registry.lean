/-!
# Registries

Things kept under names, one per name, in increasing order of the names.
-/

namespace PerThread

structure Registry (κ α : Type) where
  bindings : List (κ × α)
deriving Repr

namespace Registry

variable {κ α : Type}

def empty : Registry κ α := ⟨[]⟩

def find? [DecidableEq κ] (r : Registry κ α) (name : κ) : Option α :=
  (r.bindings.find? (·.1 = name)).map Prod.snd

/-- What is kept under the least name. -/
def first? (r : Registry κ α) : Option (κ × α) := r.bindings.head?

def erase [DecidableEq κ] (r : Registry κ α) (name : κ) : Registry κ α := ⟨r.bindings.filter (·.1 ≠ name)⟩

/-- A binding put in front of the first with a greater name. -/
def insertSorted [LT κ] [DecidableLT κ] (b : κ × α) : List (κ × α) → List (κ × α)
  | [] => [b]
  | c :: rest => if b.1 < c.1 then b :: c :: rest else c :: insertSorted b rest

/-- The registry with `value` under `name`, whatever was there before. -/
def set [DecidableEq κ] [LT κ] [DecidableLT κ] (r : Registry κ α) (name : κ) (value : α) :
    Registry κ α :=
  ⟨insertSorted (name, value) (r.erase name).bindings⟩

def values (r : Registry κ α) : List α := r.bindings.map Prod.snd

/-! ## Reading after writing -/

section
variable [DecidableEq κ]

theorem find?_erase_self (r : Registry κ α) (name : κ) : (r.erase name).find? name = none := by
  simp [find?, erase, List.find?_eq_none]

theorem find?_erase_of_ne (r : Registry κ α) {name other : κ} (h : other ≠ name) :
    (r.erase name).find? other = r.find? other := by
  simp only [find?, erase, List.find?_filter]
  congr 2
  funext b
  by_cases hb : b.1 = other
  · simp [hb, h]
  · simp [hb]

end

section
variable [LT κ] [DecidableLT κ]

theorem mem_insertSorted {b c : κ × α} {l : List (κ × α)} :
    c ∈ insertSorted b l ↔ c = b ∨ c ∈ l := by
  induction l with
  | nil => simp [insertSorted]
  | cons d rest ih =>
    unfold insertSorted
    split
    · simp
    · simp only [List.mem_cons, ih]
      grind

variable [DecidableEq κ]

theorem find?_insertSorted_self {name : κ} {value : α} {l : List (κ × α)}
    (h : ∀ b ∈ l, b.1 ≠ name) :
    (insertSorted (name, value) l).find? (·.1 = name) = some (name, value) := by
  induction l with
  | nil => simp [insertSorted]
  | cons d rest ih =>
    unfold insertSorted
    split
    · simp
    · have hd : d.1 ≠ name := h d (by simp)
      simpa [hd] using ih fun b hb => h b (by simp [hb])

theorem find?_insertSorted_of_ne {b : κ × α} {other : κ} (h : other ≠ b.1) (l : List (κ × α)) :
    (insertSorted b l).find? (·.1 = other) = l.find? (·.1 = other) := by
  induction l with
  | nil => simp [insertSorted, Ne.symm h]
  | cons d rest ih =>
    unfold insertSorted
    split
    · simp [Ne.symm h]
    · simp only [List.find?_cons, ih]

theorem find?_set_self (r : Registry κ α) (name : κ) (value : α) :
    (r.set name value).find? name = some value := by
  unfold set find?
  rw [find?_insertSorted_self]
  · rfl
  · intro b hb
    simpa using (List.mem_filter.1 hb).2

theorem find?_set_of_ne (r : Registry κ α) {name other : κ} (h : other ≠ name) (value : α) :
    (r.set name value).find? other = r.find? other := by
  rw [← find?_erase_of_ne r h]
  unfold set find?
  rw [find?_insertSorted_of_ne h]

end

end Registry

end PerThread
