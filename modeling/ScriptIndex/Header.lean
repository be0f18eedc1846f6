import ScriptIndex.Declaration
import ScriptIndex.Identifier
import ScriptIndex.Text.Cut

/-!
# Function headers

A header is `def <name>(<arguments>)` on one line. It may stand anywhere in a span of code, as long
as `def` is a word of its own and the name is not blank.

* `Header.find?` — the first header of a span;
* `Header.parameters` — the parameters written between the parentheses.
-/

namespace ScriptIndex

structure Header where
  /-- The name, trimmed. -/
  name : List Char
  /-- All that stands between the parentheses. -/
  arguments : List Char
deriving DecidableEq, Repr

namespace Header

/-- The keyword of a header, with the blank after it. -/
def keyword : List Char := ['d', 'e', 'f', ' ']

/-- The first header of a span whose preceding character is `before`, if there is one. A keyword
with a blank name is passed over; without the parentheses there is no header here or later. -/
def findAfter? (before : Option Char) : List Char → Option Header
  | [] => none
  | c :: rest =>
    if keyword.isPrefixOf (c :: rest) && !before.any Identifier.isChar then
      match Text.cut? ['('] ((c :: rest).drop keyword.length) with
      | none => none
      | some (name, tail) =>
        if Text.isBlankText name then findAfter? (some c) rest
        else (Text.cut? [')'] tail).map fun (arguments, _) =>
          { name := Text.trim name, arguments }
    else findAfter? (some c) rest

def find? (code : List Char) : Option Header :=
  findAfter? none code

/-- One parameter: a name, and a type after the first colon. A piece without a name is none. -/
def parameter? (piece : List Char) : Option Parameter :=
  let (name, type) :=
    match Text.cut? [':'] piece with
    | some (name, type) => (Text.trim name, some (String.ofList (Text.trim type)))
    | none => (Text.trim piece, none)
  if name = [] then none else some { name := String.ofList name, type }

/-- The parameters between the parentheses, which commas divide. -/
def parameters (header : Header) : List Parameter :=
  (header.arguments.splitOn ',').filterMap parameter?

end Header

end ScriptIndex
