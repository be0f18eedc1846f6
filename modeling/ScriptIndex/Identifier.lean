import ScriptIndex.Text.Lines

/-!
# Words and calls

A word is a maximal run of identifier characters on a line.  Reading backwards from a cursor, the first
parenthesis that is opened and not closed again belongs to the call whose arguments the cursor stands
in.

* `Identifier.isChar` — ASCII letters, digits and the underscore;
* `Identifier.wordAt` — the word that covers an offset;
* `Identifier.harvest` — every distinct word of a text, in order of first occurrence;
* `CallSite.opening?` — the parenthesis that opens a call, as the text before it and the commas passed
  on the way;
* `CallSite.around?` — the word directly before it, and which argument the cursor is in.
-/

namespace ScriptIndex

namespace Identifier

/-- The characters a word is made of. -/
def isChar (c : Char) : Bool :=
  c.isAlphanum || c = '_'

/-- The longest run of identifier characters at the end of a text. -/
def wordBefore (s : List Char) : List Char :=
  (s.reverse.takeWhile isChar).reverse

/-- The word that covers the character at `offset`, empty if that is no identifier character. -/
def wordAt (line : List Char) (offset : Nat) : List Char :=
  match line.drop offset with
  | [] => []
  | c :: rest =>
    if isChar c then wordBefore (line.take offset) ++ (c :: rest).takeWhile isChar else []

/-- The words of one line, from left to right. -/
def words (line : List Char) : List (List Char) :=
  (line.splitOnP fun c => !isChar c).filter fun word => !word.isEmpty

/-- The distinct words of a text that are not in `known`, in order of first occurrence. -/
def harvest (text : List Char) (known : List String) : List String :=
  let found := ((Text.lines text).flatMap words).map String.ofList
  (found.filter fun word => !known.contains word).eraseDups

end Identifier

/-! ### Calls -/

/-- A call whose argument list is being written. -/
structure CallSite where
  /-- The word directly before the opening parenthesis. -/
  callee : String
  /-- The number of commas of this argument list before the cursor. -/
  argument : Nat
deriving DecidableEq, Repr

namespace CallSite

/-- Reads a reversed text up to the first unmatched opening parenthesis. `depth` counts the closed
ones still to be matched, `commas` those of the argument list itself. Gives the reversed text
before the parenthesis and the commas, counted without a bound; below 2 ^ 32 of them the count is also
that of a 32-bit counter. -/
def opening? : List Char → (depth commas : Nat) → Option (List Char × Nat)
  | [], _, _ => none
  | c :: rest, depth, commas =>
    if c = ')' then opening? rest (depth + 1) commas
    else if c = '(' then
      match depth with
      | 0 => some (rest, commas)
      | outer + 1 => opening? rest outer commas
    else if c = ',' && depth = 0 then opening? rest depth (commas + 1)
    else opening? rest depth commas

/-- The call around the cursor at `offset`; blanks between callee and parenthesis are not allowed. -/
def around? (line : List Char) (offset : Nat) : Option CallSite :=
  match opening? (line.take offset).reverse 0 0 with
  | none => none
  | some (before, commas) =>
    match (before.takeWhile Identifier.isChar).reverse with
    | [] => none
    | callee => some { callee := String.ofList callee, argument := commas }

end CallSite

end ScriptIndex
