import Mathlib.Order.Bounds.Defs
import ScriptIndex.Proofs.Editing
import ScriptIndex.Proofs.Splicing

/-!
# Columns and the characters before them

Every position an editor sends is a column in UTF-16 code units, and every place in a text is a number of
characters.  A column is used up character by character, and whether it is used up is asked before a
character is taken, so everything is decided at the ends of characters: an index lies at or behind a
column if and only if the characters before the index have at least as many code units.

* `Text.codeUnits`, `Text.utf16` — the code units themselves, and `Text.length_utf16`, their number;
* `Text.indexOfColumn_le_iff` — the order of indices is the order of widths;
* `Text.indexOfColumn_append` — behind some characters the columns are those of the rest;
* `Text.indexOfColumn_exact` — the index of every column of a text.
-/

namespace ScriptIndex.Text

/-! ## Code units -/

/-- The code units of a character: itself in the basic plane, else a pair of surrogates, ten bits each. -/
def codeUnits (c : Char) : List UInt16 :=
  if c.toNat < 0x10000 then [UInt16.ofNat c.toNat]
  else
    [UInt16.ofNat (0xD800 + (c.toNat - 0x10000) / 0x400),
      UInt16.ofNat (0xDC00 + (c.toNat - 0x10000) % 0x400)]

/-- A text in UTF-16. -/
def utf16 (s : List Char) : List UInt16 :=
  s.flatMap codeUnits

theorem length_codeUnits (c : Char) : (codeUnits c).length = units c := by
  unfold codeUnits units
  split <;> rfl

@[simp] theorem width_nil : width [] = 0 := rfl

@[simp] theorem width_cons (c : Char) (s : List Char) : width (c :: s) = units c + width s := by
  have hstart : ∀ before, s.foldl (fun before c => before + units c) before = before + width s := by
    unfold width
    induction s with
    | nil => exact fun before => rfl
    | cons d rest ih =>
      intro before
      rw [List.foldl_cons, List.foldl_cons, ih, ih (0 + units d)]
      omega
  show s.foldl (fun before c => before + units c) (0 + units c) = _
  rw [hstart, Nat.zero_add]

theorem width_append (s t : List Char) : width (s ++ t) = width s + width t := by
  induction s with
  | nil => simp
  | cons c rest ih => rw [List.cons_append, width_cons, width_cons, ih, Nat.add_assoc]

/-- **The width of a text** is the number of its code units. -/
theorem length_utf16 (s : List Char) : (utf16 s).length = width s := by
  induction s with
  | nil => rfl
  | cons c rest ih =>
    have hrest : (rest.flatMap codeUnits).length = width rest := ih
    rw [utf16, List.flatMap_cons, List.length_append, length_codeUnits, hrest, width_cons]

/-- No part of a text from its start is wider than the text. -/
theorem width_take_le (s : List Char) (i : Nat) : width (s.take i) ≤ width s := by
  have hparts := width_append (s.take i) (s.drop i)
  rw [List.take_append_drop] at hparts
  omega

/-! ## Indices and widths -/

/-- **The order of indices is the order of widths.**  Behind the end of the text it is not: there every
index is large enough, and no width is. -/
theorem indexOfColumn_le_iff {s : List Char} {column i : Nat} (h : i < s.length) :
    indexOfColumn s column ≤ i ↔ column ≤ width (s.take i) := by
  fun_induction indexOfColumn s column generalizing i with
  | case1 => exact absurd h (Nat.not_lt_zero i)
  | case2 => simp
  | case3 c rest column ih =>
    cases i with
    | zero => simp
    | succ i =>
      rw [Nat.add_le_add_iff_right, ih (Nat.lt_of_succ_lt_succ h), List.take_succ_cons, width_cons]
      omega

/-- A column that the text reaches has the first index whose characters reach it. -/
theorem isLeast_indexOfColumn {s : List Char} {column : Nat} (h : column ≤ width s) :
    IsLeast {i | column ≤ width (s.take i)} (indexOfColumn s column) := by
  have hle := indexOfColumn_le_length s column
  constructor
  · rcases Nat.lt_or_eq_of_le hle with hlt | heq
    · exact (indexOfColumn_le_iff hlt).mp (Nat.le_refl _)
    · show column ≤ width (s.take (indexOfColumn s column))
      rw [heq, List.take_length]
      exact h
  · intro i hi
    by_cases hlt : i < s.length
    · exact (indexOfColumn_le_iff hlt).mpr hi
    · omega

/-- A column that the text does not reach stands for its end. -/
theorem indexOfColumn_of_width_lt {s : List Char} {column : Nat} (h : width s < column) :
    indexOfColumn s column = s.length := by
  refine Nat.le_antisymm (indexOfColumn_le_length s column) (Nat.not_lt.mp fun hlt => ?_)
  have hreached := (indexOfColumn_le_iff hlt).mp (Nat.le_refl _)
  have hwidth := width_take_le s (indexOfColumn s column)
  omega

/-- Behind some characters the columns are those of the rest. -/
theorem indexOfColumn_append (front rest : List Char) (column : Nat) :
    indexOfColumn (front ++ rest) (width front + column) = front.length + indexOfColumn rest column := by
  induction front with
  | nil => simp
  | cons c front ih =>
    rw [List.cons_append, width_cons, Nat.add_assoc, indexOfColumn_cons, ih, List.length_cons]
    omega

/-- Any column inside of the first character stands for its end. -/
theorem indexOfColumn_inside {c : Char} {column : Nat} (hpos : 0 < column) (hle : column ≤ units c)
    (rest : List Char) : indexOfColumn (c :: rest) column = 1 := by
  obtain ⟨before, rfl⟩ := Nat.exists_eq_succ_of_ne_zero (Nat.ne_of_gt hpos)
  rw [indexOfColumn, Nat.sub_eq_zero_of_le hle, indexOfColumn_zero]

/-- **The index of a column.**  It is the least number of characters, from the start of the text, that have
at least as many code units as there are before the column, or the number of all characters if these are
too few.  So a later column has no smaller index; the column at the end of some first characters has
their number as its index; and the column between the two surrogates of a character has the index behind
that character. -/
theorem indexOfColumn_exact (s : List Char) :
    (∀ column, (∃ i, column ≤ (utf16 (s.take i)).length) →
        IsLeast {i | column ≤ (utf16 (s.take i)).length} (indexOfColumn s column)) ∧
      (∀ column, (¬ ∃ i, column ≤ (utf16 (s.take i)).length) → indexOfColumn s column = s.length) ∧
      (∀ column column', column ≤ column' → indexOfColumn s column ≤ indexOfColumn s column') ∧
      (∀ front, front <+: s → indexOfColumn s (utf16 front).length = front.length) ∧
      ∀ front c back high low, s = front ++ c :: back → codeUnits c = [high, low] →
        indexOfColumn s ((utf16 front).length + 1) = (front ++ [c]).length := by
  simp only [length_utf16]
  refine ⟨?_, ?_, fun _ _ => indexOfColumn_mono s, ?_, ?_⟩
  · rintro column ⟨i, hi⟩
    exact isLeast_indexOfColumn (Nat.le_trans hi (width_take_le s i))
  · intro column hnone
    refine indexOfColumn_of_width_lt (Nat.not_le.mp fun hle => hnone ⟨s.length, ?_⟩)
    rwa [List.take_length]
  · rintro front ⟨back, rfl⟩
    have hend := indexOfColumn_append front back 0
    rwa [indexOfColumn_zero] at hend
  · rintro front c back high low rfl hpair
    have hunits : units c = 2 := by rw [← length_codeUnits, hpair]; rfl
    rw [indexOfColumn_append, indexOfColumn_inside Nat.one_pos (by omega), List.length_append]
    rfl

/-- A character of two code units between two of one: the column inside of it, the one behind it, and one
past the end. -/
theorem indexOfColumn_exact_pair :
    let s := "a😀b".toList
    utf16 s = [0x61, 0xD83D, 0xDE00, 0x62] ∧
      (∃ i, 2 ≤ (utf16 (s.take i)).length) ∧ IsLeast {i | 2 ≤ (utf16 (s.take i)).length} 2 ∧
      (¬ ∃ i, 5 ≤ (utf16 (s.take i)).length) ∧ indexOfColumn s 5 = 3 ∧
      ['a', '😀'] <+: s ∧ indexOfColumn s (utf16 ['a', '😀']).length = 2 ∧
      s = ['a'] ++ '😀' :: ['b'] ∧ codeUnits '😀' = [0xD83D, 0xDE00] ∧ indexOfColumn s 2 = 2 := by
  intro s
  obtain ⟨hleast, hend, -, hfront, hinside⟩ := indexOfColumn_exact s
  have hreached : ∃ i, 2 ≤ (utf16 (s.take i)).length := ⟨2, by decide⟩
  have hpast : ¬ ∃ i, 5 ≤ (utf16 (s.take i)).length := by
    rintro ⟨i, hi⟩
    rw [length_utf16] at hi
    have hwidth : width (s.take i) ≤ 4 := width_take_le s i
    omega
  have hparts : s = ['a'] ++ '😀' :: ['b'] := by decide
  have hpair : codeUnits '😀' = [0xD83D, 0xDE00] := by decide
  exact ⟨by decide, hreached, hleast 2 hreached, hpast, hend 5 hpast, by decide,
    hfront ['a', '😀'] (by decide), hparts, hpair, hinside ['a'] '😀' ['b'] _ _ hparts hpair⟩

end ScriptIndex.Text
