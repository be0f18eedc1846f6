/-!
# Rows with a key

Several tables of the index are lists of rows in which every key occurs once, in the order in which
the keys came in. The key of a row is a part of it, given by a function `key`.

* `Keyed.find?` — the row of a key;
* `Keyed.put` — a row in the place of the row with its key, or at the end;
* `Keyed.drop` — the rows without the row of a key.

Each operation is described by what `find?` and `has` see after it.
-/

namespace ScriptIndex.Keyed

variable {α κ : Type} [DecidableEq κ] (key : α → κ)

def find? (k : κ) (rows : List α) : Option α :=
  rows.find? fun row => decide (key row = k)

def has (k : κ) (rows : List α) : Bool :=
  decide (k ∈ rows.map key)

/-- Puts a row in the place of the row with the same key, or at the end if there is none. -/
def put (row : α) : List α → List α
  | [] => [row]
  | first :: rest => if key first = key row then row :: rest else first :: put row rest

def drop (k : κ) (rows : List α) : List α :=
  rows.filter fun row => decide (key row ≠ k)

/-! ### What is found -/

theorem has_iff (k : κ) (rows : List α) : has key k rows = true ↔ ∃ row ∈ rows, key row = k := by
  simp [has]

/-- A key has a row exactly if one is found. -/
theorem isSome_find? (k : κ) (rows : List α) : (find? key k rows).isSome = has key k rows := by
  rw [Bool.eq_iff_iff, has_iff]
  simp [find?, List.find?_isSome]

/-- The row that is found has the key that was asked for. -/
theorem key_of_find? {k : κ} {rows : List α} {row : α} (h : find? key k rows = some row) :
    key row = k := by
  simpa using List.find?_some h

/-- After putting a row, it is found under its key, and all else is as it was. -/
theorem find?_put (row : α) (k : κ) (rows : List α) :
    find? key k (put key row rows) = if key row = k then some row else find? key k rows := by
  induction rows with
  | nil => by_cases h : key row = k <;> simp [put, find?, h]
  | cons first rest ih =>
    by_cases same : key first = key row
    · by_cases h : key row = k <;> simp [put, find?, same, h]
    · rw [put, if_neg same]
      by_cases hf : key first = k
      · have other : key row ≠ k := fun h => same (hf.trans h.symm)
        simp [find?, hf, other]
      · simpa [find?, hf] using ih

/-- After dropping a key, it is not found, and all else is as it was. -/
theorem find?_drop (k k' : κ) (rows : List α) :
    find? key k' (drop key k rows) = if k' = k then none else find? key k' rows := by
  induction rows with
  | nil => simp [drop, find?]
  | cons first rest ih =>
    simp only [drop, find?] at ih ⊢
    by_cases hf : key first = k <;> by_cases h : k' = k <;> by_cases hk : key first = k' <;>
      simp_all

end ScriptIndex.Keyed
