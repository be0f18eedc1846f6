import ScriptIndex.Text.Lines

/-!
# Documents

The text of an open document, which an editor changes by naming positions in it: a row, and a column
in UTF-16 units.

* `Document.lineText` — the text of a row;
* `Document.charIndex` — the number of characters before a position; positions that lie outside the
  document stand for the nearest one in it;
* `Document.apply` — one change, a splice between two positions or a new text.
-/

namespace ScriptIndex

structure Position where
  /-- The row, counted from zero. -/
  line : Nat
  /-- The column in UTF-16 units. -/
  character : Nat
deriving DecidableEq, Repr

structure Range where
  start : Position
  stop : Position
deriving DecidableEq, Repr

/-- A change of a document: new text for a range, or for all of it. -/
structure Change where
  range : Option Range
  text : String
deriving DecidableEq, Repr

structure Document where
  text : String
  /-- The version the editor last announced. -/
  version : Option Int := none
deriving DecidableEq, Repr

namespace Document

def chars (document : Document) : List Char :=
  document.text.toList

def lineCount (document : Document) : Nat :=
  (Text.rows document.chars).length

/-- The text of a row without the end of the line; empty for a row that is not there. -/
def lineText (document : Document) (line : Nat) : List Char :=
  Text.rowText ((Text.rows document.chars).getD line [])

def lineTexts (document : Document) : List (List Char) :=
  (Text.rows document.chars).map Text.rowText

/-- The number of characters before a row. -/
def lineStart (document : Document) (line : Nat) : Nat :=
  ((Text.rows document.chars).take line).flatten.length

/-- The number of characters before a position. -/
def charIndex (document : Document) (position : Position) : Nat :=
  if position.line < document.lineCount then
    document.lineStart position.line +
      Text.indexOfColumn (document.lineText position.line) position.character
  else document.chars.length

/-- Puts `text` in the place of the characters from `first` up to `last`, if that lies behind it. -/
def splice (document : Document) (first last : Nat) (text : String) : Document :=
  let chars := document.chars
  { document with
    text := String.ofList (chars.take first ++ text.toList ++ chars.drop (max first last)) }

def apply (document : Document) (change : Change) : Document :=
  match change.range with
  | some range =>
    document.splice (document.charIndex range.start) (document.charIndex range.stop) change.text
  | none => { document with text := change.text }

def applyAll (document : Document) (changes : List Change) : Document :=
  changes.foldl apply document

end Document

end ScriptIndex
