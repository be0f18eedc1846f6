import ScriptIndex.Text.Cut

/-!
# Lines, rows and columns

Source text and editor documents are read in lines by different rules, and an editor counts columns in
UTF-16 code units where a text is a list of characters:

* `Text.lines` — the lines of a source text: a line ends at a line feed, which takes one carriage
  return right before it along; a text that ends in a line feed has no further line;
* `Text.rows` — the rows of a document, each with its break: a document breaks at more characters,
  and there is always a row after the last break;
* `Text.flatten_rows` — joined together the rows are the text again;
* `Text.rowText` — a row without its line feed or carriage return;
* `Text.units`, `Text.width` — the units of one character and of a text;
* `Text.indexOfColumn` — the number of characters before a column, where a column inside a character
  stands for the end of it and a column past the end for the end of the text.
-/

namespace ScriptIndex.Text

/-- Puts a character in front of the first line, which is opened if there is none. -/
def consHead (c : Char) : List (List Char) → List (List Char)
  | [] => [[c]]
  | line :: rest => (c :: line) :: rest

/-- The lines of a source text, without their ends. -/
def lines : List Char → List (List Char)
  | [] => []
  | '\n' :: rest => [] :: lines rest
  | '\r' :: '\n' :: rest => [] :: lines rest
  | c :: rest => consHead c (lines rest)

/-- The characters at which a document breaks; a carriage return and a line feed are one break. -/
def isBreak (c : Char) : Bool :=
  c = '\n' || c = '\r' || c = '\x0b' || c = '\x0c' || c = '\u0085' || c = '\u2028' || c = '\u2029'

/-- The rows of a document, each with the break that ends it. -/
def rows : List Char → List (List Char)
  | [] => [[]]
  | '\r' :: '\n' :: rest => ['\r', '\n'] :: rows rest
  | c :: rest => if isBreak c then [c] :: rows rest else consHead c (rows rest)

/-- A row without the line feed or carriage return at its end; other breaks stay. -/
def rowText (row : List Char) : List Char :=
  dropEndWhile (fun c => c = '\n' || c = '\r') row

/-! ### Nothing is lost -/

@[simp] theorem flatten_consHead (c : Char) (ls : List (List Char)) :
    (consHead c ls).flatten = c :: ls.flatten := by
  cases ls <;> rfl

/-- A document always has a row. -/
theorem rows_ne_nil (s : List Char) : rows s ≠ [] := by
  fun_cases rows s with
  | case4 c rest =>
    cases rows rest <;> simp [consHead]
  | _ => simp

/-- The rows of a document make up its text. -/
@[simp] theorem flatten_rows (s : List Char) : (rows s).flatten = s := by
  fun_induction rows s with
  | case1 => rfl
  | case2 rest ih => simp [ih]
  | case3 c rest _ _ ih => simp [ih]
  | case4 c rest _ _ ih => simp [ih]

/-! ### Columns -/

/-- A character outside the basic plane takes two units, any other takes one. -/
def units (c : Char) : Nat :=
  if c.toNat < 0x10000 then 1 else 2

/-- The number of units of a text. -/
def width (s : List Char) : Nat :=
  s.foldl (fun before c => before + units c) 0

/-- The number of characters that stand before a column. -/
def indexOfColumn : List Char → Nat → Nat
  | [], _ => 0
  | _ :: _, 0 => 0
  | c :: rest, column + 1 => indexOfColumn rest (column + 1 - units c) + 1

/-- A character takes at least one unit. -/
theorem units_pos (c : Char) : 0 < units c := by
  unfold units
  split <;> omega

/-- A column never points behind the end of a text. -/
theorem indexOfColumn_le_length (s : List Char) (column : Nat) :
    indexOfColumn s column ≤ s.length := by
  fun_induction indexOfColumn s column with
  | case1 => simp
  | case2 => simp
  | case3 c rest column ih => simpa using ih

end ScriptIndex.Text
