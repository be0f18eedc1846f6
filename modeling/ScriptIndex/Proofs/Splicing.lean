import ScriptIndex.Document

/-!
# Every change is a splice

A change names two positions, and they may be anything: rows and columns past the end, a column inside a
character of two units, an end before the start.  Each of them stands for a place in the text, later
positions never stand for earlier places, and the change puts its text between the two places.

* `Position.le_def` — the order of positions;
* `Document.lineStart_le_charIndex`, `Document.charIndex_le_lineStart` — a position stands for a place
  between the start of its row and the start of the next;
* `Document.charIndex_le_length`, `Document.charIndex_mono` — it lies in the text, and the order is kept;
* `Text.remove?`, `Text.insert?` — cutting and pasting where indices outside of the text are refused;
* `Document.apply_splices` — what a change does.
-/

namespace ScriptIndex

/-! ## Positions in order -/

/-- Positions are ordered by their rows, and in a row by their columns. -/
instance : LE Position where
  le p q := p.line < q.line ∨ p.line = q.line ∧ p.character ≤ q.character

theorem Position.le_def {p q : Position} :
    p ≤ q ↔ p.line < q.line ∨ p.line = q.line ∧ p.character ≤ q.character :=
  Iff.rfl

instance (p q : Position) : Decidable (p ≤ q) :=
  decidable_of_iff _ Position.le_def.symm

namespace Text

/-- A later column has no fewer characters before it. -/
theorem indexOfColumn_mono (s : List Char) {column column' : Nat} (h : column ≤ column') :
    indexOfColumn s column ≤ indexOfColumn s column' := by
  induction s generalizing column column' with
  | nil => exact Nat.le_refl 0
  | cons c rest ih =>
    cases column with
    | zero => exact Nat.zero_le _
    | succ column =>
      cases column' with
      | zero => omega
      | succ column' =>
        show indexOfColumn rest (column + 1 - units c) + 1 ≤
          indexOfColumn rest (column' + 1 - units c) + 1
        have hrest := ih (Nat.sub_le_sub_right h (units c))
        omega

theorem length_rowText_le (row : List Char) : (rowText row).length ≤ row.length := by
  unfold rowText dropEndWhile
  have hkept := (List.dropWhile_sublist (fun c => c = '\n' || c = '\r') (l := row.reverse)).length_le
  rw [List.length_reverse] at hkept
  rw [List.length_reverse]
  exact hkept

end Text

namespace Document

variable (document : Document)

/-! ## Rows in order -/

theorem lineStart_mono {line line' : Nat} (h : line ≤ line') :
    document.lineStart line ≤ document.lineStart line' := by
  obtain ⟨more, rfl⟩ := Nat.exists_eq_add_of_le h
  unfold lineStart
  rw [List.take_add, List.flatten_append, List.length_append]
  omega

theorem lineStart_of_le {line : Nat} (h : document.lineCount ≤ line) :
    document.lineStart line = document.chars.length := by
  unfold lineStart
  rw [List.take_of_length_le h, Text.flatten_rows]

theorem lineStart_le_length (line : Nat) : document.lineStart line ≤ document.chars.length := by
  have hend := document.lineStart_of_le (Nat.le_max_right line document.lineCount)
  rw [← hend]
  exact document.lineStart_mono (Nat.le_max_left _ _)

/-- A row starts where the one before it ends. -/
theorem lineStart_succ {line : Nat} (h : line < document.lineCount) :
    document.lineStart (line + 1) =
      document.lineStart line + ((Text.rows document.chars).getD line []).length := by
  have hrow : (Text.rows document.chars)[line]? = some ((Text.rows document.chars).getD line []) := by
    rw [List.getD_eq_getElem?_getD, List.getElem?_eq_getElem h]
    rfl
  unfold lineStart
  rw [List.take_add_one, List.flatten_append, List.length_append, hrow]
  simp

/-! ## The place of a position -/

/-- No place of a row lies before the row. -/
theorem lineStart_le_charIndex (position : Position) :
    document.lineStart position.line ≤ document.charIndex position := by
  unfold charIndex
  split
  · omega
  · exact document.lineStart_le_length _

/-- No place of a row lies behind the start of the next: the text of a row is not longer than the row. -/
theorem charIndex_le_lineStart (position : Position) :
    document.charIndex position ≤ document.lineStart (position.line + 1) := by
  unfold charIndex
  split
  · next hline =>
    have hcolumn := Text.indexOfColumn_le_length (document.lineText position.line) position.character
    have hrow : (document.lineText position.line).length ≤ _ := Text.length_rowText_le _
    rw [document.lineStart_succ hline]
    omega
  · next hline =>
    have hend : document.lineStart (position.line + 1) = document.chars.length :=
      document.lineStart_of_le (by omega)
    omega

theorem charIndex_le_length (position : Position) :
    document.charIndex position ≤ document.chars.length :=
  Nat.le_trans (document.charIndex_le_lineStart position) (document.lineStart_le_length _)

/-- **Later positions do not stand for earlier places.** -/
theorem charIndex_mono {p q : Position} (h : p ≤ q) : document.charIndex p ≤ document.charIndex q := by
  rcases Position.le_def.mp h with hline | ⟨hline, hcharacter⟩
  · calc document.charIndex p
        ≤ document.lineStart (p.line + 1) := document.charIndex_le_lineStart p
      _ ≤ document.lineStart q.line := document.lineStart_mono hline
      _ ≤ document.charIndex q := document.lineStart_le_charIndex q
  · unfold charIndex
    rw [hline]
    split
    · have hcolumn := Text.indexOfColumn_mono (document.lineText q.line) hcharacter
      omega
    · exact Nat.le_refl _

end Document

/-! ## Cutting and pasting -/

namespace Text

/-- A text without the characters from `first` up to `last`; refused unless these lie in the text. -/
def remove? (s : List Char) (first last : Nat) : Option (List Char) :=
  if first ≤ last ∧ last ≤ s.length then some (s.take first ++ s.drop last) else none

/-- A text with another one put in at a place; refused unless the place lies in the text. -/
def insert? (s : List Char) (place : Nat) (t : List Char) : Option (List Char) :=
  if place ≤ s.length then some (s.take place ++ t ++ s.drop place) else none

theorem remove?_insert? {s : List Char} {first last : Nat} (hfirst : first ≤ last)
    (hlast : last ≤ s.length) (t : List Char) :
    ((remove? s first last).bind fun rest => insert? rest first t) =
      some (s.take first ++ t ++ s.drop last) := by
  have hlength : (s.take first).length = first := by
    rw [List.length_take]
    omega
  unfold remove? insert?
  rw [if_pos ⟨hfirst, hlast⟩, Option.bind_some, if_pos (by rw [List.length_append]; omega)]
  rw [List.take_left' hlength, List.drop_left' hlength]

end Text

namespace Document

/-- **Every change is a splice.**  Whatever two positions a change names, they stand for places in the
text, in the order of the positions.  The text is cut at the first place and at the last one, or again at
the first where that lies behind it, so that nothing outside of the text is ever asked for.  If the
positions are in order, what lies between their places is replaced and nothing else. -/
theorem apply_splices (document : Document) (start stop : Position) (text : String) :
    let chars := document.chars
    let first := document.charIndex start
    let last := document.charIndex stop
    let result := (document.apply { range := some { start, stop }, text }).chars
    (first ≤ chars.length ∧ last ≤ chars.length) ∧
      (∀ p q : Position, p ≤ q → document.charIndex p ≤ document.charIndex q) ∧
      result = chars.take first ++ text.toList ++ chars.drop (max first last) ∧
      ((Text.remove? chars first (max first last)).bind fun rest =>
        Text.insert? rest first text.toList) = some result ∧
      (start ≤ stop → ∃ before replaced after, chars = before ++ (replaced ++ after) ∧
        before.length = first ∧ before.length + replaced.length = last ∧
        result = before ++ (text.toList ++ after)) := by
  intro chars first last result
  have hfirst : first ≤ chars.length := document.charIndex_le_length start
  have hlast : last ≤ chars.length := document.charIndex_le_length stop
  have hresult : result = chars.take first ++ text.toList ++ chars.drop (max first last) := by
    show (String.ofList _).toList = _
    rw [String.toList_ofList]
  refine ⟨⟨hfirst, hlast⟩, fun p q => document.charIndex_mono, hresult, ?_, ?_⟩
  · rw [hresult]
    exact Text.remove?_insert? (Nat.le_max_left _ _) (Nat.max_le.mpr ⟨hfirst, hlast⟩) _
  · intro horder
    have hle : first ≤ last := document.charIndex_mono horder
    rw [Nat.max_eq_right hle, List.append_assoc] at hresult
    refine ⟨chars.take first, (chars.drop first).take (last - first), chars.drop last, ?_, ?_, ?_,
      hresult⟩
    · have hrest : (chars.drop first).drop (last - first) = chars.drop last := by
        rw [List.drop_drop, Nat.add_sub_cancel' hle]
      rw [← hrest, List.take_append_drop, List.take_append_drop]
    · rw [List.length_take]
      omega
    · rw [List.length_take, List.length_take, List.length_drop]
      omega

/-- A change from inside a character of two units to far behind the end of a row that ends in a line
separator. -/
theorem apply_splices_inside :
    let document : Document := { text := "a😀\r\nb\u2028c" }
    let start : Position := { line := 0, character := 2 }
    let stop : Position := { line := 1, character := 99 }
    let result := document.apply { range := some { start, stop }, text := "x" }
    (start ≤ stop ∧ result.text = "a😀xc") ∧
      ∃ before replaced after, document.chars = before ++ (replaced ++ after) ∧
        before.length = document.charIndex start ∧
        before.length + replaced.length = document.charIndex stop ∧
        result.chars = before ++ ("x".toList ++ after) := by
  intro document start stop result
  have horder : start ≤ stop := by decide
  have hsplice := (apply_splices document start stop "x").2.2.2.2 horder
  exact ⟨⟨horder, by decide +kernel⟩, hsplice⟩

end Document

end ScriptIndex
