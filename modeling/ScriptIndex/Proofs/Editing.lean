import ScriptIndex.Document

/-!
# Edits reach the place they are meant for

An editor thinks of an edit as a stretch between two characters, and sends it as two positions that it
counts on the text it has.  Applied to a document with the same text, the change hits the same
stretch, so that editor and document never drift apart.

* `Position.advance`, `Text.positionOf` — positions the way an editor counts them, from the front;
* `Text.SplitsBreak` — the places between a carriage return and its line feed, which have no position;
* `Text.rowIndex_positionOf`, `Document.charIndex_positionOf` — the place of a counted position;
* `Edit` — an edit by characters, the text it leads to and the change that is sent for it;
* `Edit.apply_change`, `Edit.applyAll_changes` — one edit, and every sequence of edits.
-/

namespace ScriptIndex

/-! ## Counting positions -/

/-- The position behind a text that starts at a given position: a break leads to the start of the next
row, any other character to as many columns on as it has units. -/
def Position.advance : Position → List Char → Position
  | position, [] => position
  | position, '\r' :: '\n' :: rest => advance { line := position.line + 1, character := 0 } rest
  | position, c :: rest =>
    advance
      (if Text.isBreak c then { line := position.line + 1, character := 0 }
        else { position with character := position.character + Text.units c }) rest

namespace Text

/-- The position of the place behind the first `i` characters of a text. -/
def positionOf (s : List Char) (i : Nat) : Position :=
  Position.advance { line := 0, character := 0 } (s.take i)

/-- The place behind the first `i` characters lies inside a break, between a carriage return and the
line feed that belongs to it. -/
def SplitsBreak (s : List Char) : Nat → Prop
  | 0 => False
  | i + 1 => s[i]? = some '\r' ∧ s[i + 1]? = some '\n'

instance (s : List Char) : (i : Nat) → Decidable (SplitsBreak s i)
  | 0 => inferInstanceAs (Decidable False)
  | _ + 1 => inferInstanceAs (Decidable (_ ∧ _))

theorem SplitsBreak.cons {s : List Char} {i : Nat} (h : SplitsBreak s i) (c : Char) :
    SplitsBreak (c :: s) (i + 1) := by
  cases i with
  | zero => exact h.elim
  | succ i => exact h

end Text

namespace Position

/-- Where a character ends the row. -/
theorem advance_break {c : Char} {rest : List Char} (position : Position)
    (hcrlf : ∀ more, c = '\r' → rest = '\n' :: more → False) (hc : Text.isBreak c = true) :
    advance position (c :: rest) = advance { line := position.line + 1, character := 0 } rest := by
  rw [advance]
  · rw [if_pos hc]
  · exact hcrlf

/-- Where a character is part of the row. -/
theorem advance_char {c : Char} {rest : List Char} (position : Position)
    (hcrlf : ∀ more, c = '\r' → rest = '\n' :: more → False) (hc : ¬ Text.isBreak c = true) :
    advance position (c :: rest) =
      advance { position with character := position.character + Text.units c } rest := by
  rw [advance]
  · rw [if_neg hc]
  · exact hcrlf

/-- Counting from a position is counting from the front, so many rows and, in the first row, so many
columns on. -/
theorem advance_eq (position : Position) (s : List Char) :
    let counted := advance { line := 0, character := 0 } s
    advance position s =
      { line := position.line + counted.line
        character :=
          if counted.line = 0 then position.character + counted.character
          else counted.character } := by
  induction s using Text.rows.induct generalizing position with
  | case1 => simp [advance]
  | case2 rest ih =>
    simp only [advance]
    rw [ih { line := position.line + 1, character := 0 }, ih { line := 0 + 1, character := 0 }]
    simp
    omega
  | case3 c rest hcrlf hc ih =>
    simp only [advance_break _ hcrlf hc]
    rw [ih { line := position.line + 1, character := 0 }, ih { line := 0 + 1, character := 0 }]
    simp
    omega
  | case4 c rest hcrlf hc ih =>
    simp only [advance_char _ hcrlf hc]
    rw [ih { position with character := position.character + Text.units c },
      ih { line := 0, character := 0 + Text.units c }]
    simp
    split <;> omega

end Position

/-! ## The place of a position -/

namespace Text

theorem indexOfColumn_zero (s : List Char) : indexOfColumn s 0 = 0 := by
  cases s <;> rfl

/-- Behind its first character a text is left with the columns that the character does not take. -/
theorem indexOfColumn_cons (c : Char) (s : List Char) (column : Nat) :
    indexOfColumn (c :: s) (units c + column) = indexOfColumn s column + 1 := by
  have hpos := units_pos c
  obtain ⟨before, hbefore⟩ : ∃ before, units c + column = before + 1 :=
    ⟨units c + column - 1, by omega⟩
  rw [hbefore, indexOfColumn, ← hbefore, Nat.add_sub_cancel_left]

/-- A character other than a line feed or carriage return is part of the text of its row. -/
theorem rowText_cons {c : Char} (hc : ¬ isBreak c = true) (row : List Char) :
    rowText (c :: row) = c :: rowText row := by
  have hkept : ¬ (decide (c = '\n') || decide (c = '\r')) = true := by
    simp only [isBreak, Bool.or_eq_true, not_or] at hc
    simp only [Bool.or_eq_true, not_or]
    exact ⟨hc.1.1.1.1.1.1, hc.1.1.1.1.1.2⟩
  unfold rowText dropEndWhile
  rw [List.reverse_cons, List.dropWhile_append]
  split
  · next hempty =>
    rw [List.isEmpty_iff.mp hempty, List.dropWhile_cons, if_neg hkept]
    rfl
  · rw [List.reverse_append]
    rfl

/-- The number of characters of a text before a row and a column in it. -/
def rowIndex (rows : List (List Char)) (position : Position) : Nat :=
  (rows.take position.line).flatten.length +
    indexOfColumn (rowText (rows.getD position.line [])) position.character

/-- A row in front moves everything behind it. -/
theorem rowIndex_cons (row : List Char) (rows : List (List Char)) (line character : Nat) :
    rowIndex (row :: rows) { line := 1 + line, character } =
      row.length + rowIndex rows { line, character } := by
  simp only [rowIndex, Nat.add_comm 1 line, List.take_succ_cons, List.flatten_cons,
    List.length_append, List.getD_cons_succ, Nat.add_assoc]

/-- A character in front of the first row moves the places in that row by its columns, and all others
as they are. -/
theorem rowIndex_consHead {c : Char} (hc : ¬ isBreak c = true) {rows : List (List Char)}
    (hrows : rows ≠ []) (position : Position) :
    rowIndex (consHead c rows)
        { line := position.line
          character :=
            if position.line = 0 then units c + position.character else position.character } =
      rowIndex rows position + 1 := by
  obtain ⟨line, character⟩ := position
  obtain ⟨row, more, rfl⟩ := List.exists_cons_of_ne_nil hrows
  cases line with
  | zero =>
    simp [rowIndex, consHead, rowText_cons hc, indexOfColumn_cons]
  | succ line =>
    simp [rowIndex, consHead]
    omega

theorem length_consHead {c : Char} {rows : List (List Char)} (hrows : rows ≠ []) :
    (consHead c rows).length = rows.length := by
  obtain ⟨row, more, rfl⟩ := List.exists_cons_of_ne_nil hrows
  rfl

/-- Nothing stands before the start of a text. -/
theorem rowIndex_start (s : List Char) :
    (positionOf s 0).line < (rows s).length ∧ rowIndex (rows s) (positionOf s 0) = 0 := by
  constructor
  · exact List.length_pos_iff.mpr (rows_ne_nil s)
  · show ([] : List (List Char)).flatten.length + indexOfColumn _ 0 = 0
    rw [indexOfColumn_zero]
    rfl

/-- A text that is cut off starts a break no more than the whole does. -/
theorem crlf_of_take {c : Char} {rest : List Char} (i : Nat)
    (h : ∀ more, c = '\r' → rest = '\n' :: more → False) :
    ∀ more, c = '\r' → rest.take i = '\n' :: more → False := by
  intro more hc htake
  cases rest with
  | nil => simp at htake
  | cons d rest =>
    cases i with
    | zero => simp at htake
    | succ i =>
      rw [List.take_succ_cons, List.cons.injEq] at htake
      exact h rest hc (by rw [htake.1])

/-- Behind a break the count goes on in the next row. -/
theorem advance_nextRow (s : List Char) (i : Nat) :
    Position.advance { line := 0 + 1, character := 0 } (s.take i) =
      { line := 1 + (positionOf s i).line, character := (positionOf s i).character } := by
  rw [Position.advance_eq]
  simp [positionOf]

theorem positionOf_break {c : Char} {rest : List Char} (i : Nat)
    (hcrlf : ∀ more, c = '\r' → rest = '\n' :: more → False) (hc : isBreak c = true) :
    positionOf (c :: rest) (i + 1) =
      { line := 1 + (positionOf rest i).line, character := (positionOf rest i).character } := by
  show Position.advance _ (c :: rest.take i) = _
  rw [Position.advance_break _ (crlf_of_take i hcrlf) hc]
  exact advance_nextRow rest i

theorem positionOf_char {c : Char} {rest : List Char} (i : Nat)
    (hcrlf : ∀ more, c = '\r' → rest = '\n' :: more → False) (hc : ¬ isBreak c = true) :
    positionOf (c :: rest) (i + 1) =
      { line := (positionOf rest i).line
        character :=
          if (positionOf rest i).line = 0 then units c + (positionOf rest i).character
          else (positionOf rest i).character } := by
  show Position.advance _ (c :: rest.take i) = _
  rw [Position.advance_char _ (crlf_of_take i hcrlf) hc, Position.advance_eq]
  simp only [Nat.zero_add]
  rfl

/-- **The place of a counted position.**  The position of a place that does not lie inside a break is
in one of the rows, and it is the position of that place. -/
theorem rowIndex_positionOf {s : List Char} {i : Nat} (hi : i ≤ s.length) (h : ¬ SplitsBreak s i) :
    (positionOf s i).line < (rows s).length ∧ rowIndex (rows s) (positionOf s i) = i := by
  induction s using rows.induct generalizing i with
  | case1 =>
    obtain rfl : i = 0 := Nat.le_zero.mp hi
    exact rowIndex_start []
  | case2 rest ih =>
    match i with
    | 0 => exact rowIndex_start _
    | 1 => exact absurd ⟨rfl, rfl⟩ h
    | i + 2 =>
      obtain ⟨hline, hindex⟩ := ih (Nat.le_of_add_le_add_right (b := 2) hi)
        fun hsplit => h ((hsplit.cons '\n').cons '\r')
      show (Position.advance _ (rest.take i)).line < (_ :: rows rest).length ∧
        rowIndex (_ :: rows rest) (Position.advance _ (rest.take i)) = i + 2
      rw [advance_nextRow, rowIndex_cons, hindex]
      simp only [List.length_cons, List.length_nil]
      omega
  | case3 c rest hcrlf hc ih =>
    cases i with
    | zero => exact rowIndex_start _
    | succ i =>
      obtain ⟨hline, hindex⟩ := ih (Nat.le_of_succ_le_succ hi) fun hsplit => h (hsplit.cons c)
      have hrows : rows (c :: rest) = [c] :: rows rest := by
        rw [rows, if_pos hc]
        exact hcrlf
      rw [positionOf_break i hcrlf hc, hrows, rowIndex_cons, hindex]
      simp only [List.length_cons, List.length_nil]
      omega
  | case4 c rest hcrlf hc ih =>
    cases i with
    | zero => exact rowIndex_start _
    | succ i =>
      obtain ⟨hline, hindex⟩ := ih (Nat.le_of_succ_le_succ hi) fun hsplit => h (hsplit.cons c)
      have hrows : rows (c :: rest) = consHead c (rows rest) := by
        rw [rows, if_neg hc]
        exact hcrlf
      rw [positionOf_char i hcrlf hc, hrows, rowIndex_consHead hc (rows_ne_nil rest), hindex,
        length_consHead (rows_ne_nil rest)]
      exact ⟨hline, rfl⟩

end Text

/-- The document finds the place that an editor counted to. -/
theorem Document.charIndex_positionOf {document : Document} {i : Nat}
    (hi : i ≤ document.chars.length) (h : ¬ Text.SplitsBreak document.chars i) :
    document.charIndex (Text.positionOf document.chars i) = i := by
  obtain ⟨hline, hindex⟩ := Text.rowIndex_positionOf hi h
  have hcount : (Text.positionOf document.chars i).line < document.lineCount := hline
  rw [charIndex, if_pos hcount]
  exact hindex

/-! ## Edits -/

/-- An edit: the characters from `first` up to `last` give way to a text. -/
structure Edit where
  /-- The number of characters before the stretch. -/
  first : Nat
  /-- The number of characters before its end. -/
  last : Nat
  text : String
deriving DecidableEq, Repr

namespace Edit

/-- An edit of a text is about a stretch of it whose two ends do not lie inside a break. -/
def Fits (edit : Edit) (s : List Char) : Prop :=
  edit.first ≤ edit.last ∧ edit.last ≤ s.length ∧
    ¬ Text.SplitsBreak s edit.first ∧ ¬ Text.SplitsBreak s edit.last

instance (edit : Edit) (s : List Char) : Decidable (edit.Fits s) :=
  inferInstanceAs (Decidable (_ ∧ _ ∧ _ ∧ _))

/-- The text after an edit. -/
def replace (s : List Char) (edit : Edit) : List Char :=
  s.take edit.first ++ edit.text.toList ++ s.drop edit.last

/-- The change that an editor with the text `s` sends for an edit. -/
def change (edit : Edit) (s : List Char) : Change where
  range := some
    { start := Text.positionOf s edit.first
      stop := Text.positionOf s edit.last }
  text := edit.text

/-- Every edit of a sequence fits the text that the earlier ones lead to. -/
def AllFit : List Char → List Edit → Prop
  | _, [] => True
  | s, edit :: rest => edit.Fits s ∧ AllFit (replace s edit) rest

instance allFitDecidable : (s : List Char) → (edits : List Edit) → Decidable (AllFit s edits)
  | _, [] => inferInstanceAs (Decidable True)
  | s, edit :: rest =>
    have := allFitDecidable (replace s edit) rest
    inferInstanceAs (Decidable (_ ∧ _))

/-- The changes that are sent for a sequence of edits, each counted on the text of its time. -/
def changes : List Char → List Edit → List Change
  | _, [] => []
  | s, edit :: rest => edit.change s :: changes (replace s edit) rest

/-- **One edit.**  A document with the text of the editor becomes the edited text. -/
theorem apply_change {edit : Edit} {document : Document} (h : edit.Fits document.chars) :
    (document.apply (edit.change document.chars)).chars = replace document.chars edit := by
  obtain ⟨hle, hlast, hfirstSplit, hlastSplit⟩ := h
  show (document.splice (document.charIndex (Text.positionOf document.chars edit.first))
    (document.charIndex (Text.positionOf document.chars edit.last)) edit.text).chars = _
  rw [Document.charIndex_positionOf (Nat.le_trans hle hlast) hfirstSplit,
    Document.charIndex_positionOf hlast hlastSplit]
  show (String.ofList _).toList = _
  rw [String.toList_ofList, Nat.max_eq_right hle]
  rfl

/-- **Editor and document stay in step.**  Whatever text they start with and whatever edits follow,
each of them sent as a change between two positions that are counted on the text of its time, the
document has the text that the edits lead to. -/
theorem applyAll_changes (document : Document) (edits : List Edit)
    (h : AllFit document.chars edits) :
    (document.applyAll (changes document.chars edits)).text =
      String.ofList (edits.foldl replace document.chars) := by
  induction edits generalizing document with
  | nil => exact (String.ofList_toList).symm
  | cons edit rest ih =>
    obtain ⟨hfits, hrest⟩ := h
    have happly := apply_change hfits
    rw [← happly] at hrest
    have htext := ih (document.apply (edit.change document.chars)) hrest
    rw [happly] at htext
    exact htext

/-- Edits around a surrogate pair, a break of two characters, a lone carriage return, a line separator
and the empty row at the end; the third edit is counted on a break that the second one made. -/
theorem applyAll_changes_breaks :
    let document : Document := { text := "a😀b\r\nc\rd\u2028e\n" }
    let edits : List Edit := [⟨2, 3, "xy"⟩, ⟨8, 8, "\n"⟩, ⟨7, 12, "z\x0b"⟩, ⟨9, 9, "!"⟩, ⟨0, 6, ""⟩]
    AllFit document.chars edits ∧
      String.ofList (edits.foldl replace document.chars) = "cz\x0b!\n" ∧
      (document.applyAll (changes document.chars edits)).text =
        String.ofList (edits.foldl replace document.chars) := by
  intro document edits
  have hfit : AllFit document.chars edits := by decide +kernel
  exact ⟨hfit, by decide +kernel, applyAll_changes document edits hfit⟩

end Edit

end ScriptIndex
