import ScriptIndex.Identifier
import ScriptIndex.Text.Cut

/-!
# Documentation comments

The lines of a block comment become one paragraph of markdown. A line that carries a tag such as
`@param` starts on a line of its own, and the tag is emphasised.

* `DocComment.content` — a line of a comment without its comment marks;
* `DocComment.findTag?` — the first tag of a line;
* `DocComment.push` — one more line at the end of the paragraph;
* `DocComment.render` — the paragraph for all lines of a comment.
-/

namespace ScriptIndex.DocComment

def opener : List Char := ['/', '*']

def closer : List Char := ['*', '/']

def dropStar : List Char → List Char
  | '*' :: rest => rest
  | s => s

/-- What follows the first opener; a second star belongs to the opener unless it starts the closer. -/
def afterOpener (line : List Char) : List Char :=
  match Text.cut? opener line with
  | none => line
  | some (_, rest) => if closer.isPrefixOf rest then rest else dropStar rest

def beforeCloser (s : List Char) : List Char :=
  match Text.cut? closer s with
  | none => s
  | some (before, _) => before

/-- A line of a comment without opener, closer and the star that decorates its start. -/
def content (line : List Char) : List Char :=
  let inner := Text.trim (beforeCloser (afterOpener line))
  match inner with
  | '*' :: rest => Text.trim rest
  | _ => inner

/-- The characters a tag can start with, after its at sign. -/
def isTagStart (c : Char) : Bool :=
  c.isAlpha || c = '_'

/-- A content cut around its first tag. -/
structure Tagged where
  before : List Char
  /-- The tag with its at sign. -/
  tag : List Char
  after : List Char
deriving DecidableEq, Repr

/-- The first tag: an at sign at the start or after a blank, and the word after it. `atStart` tells
whether a tag may start right here. -/
def findTagFrom? (atStart : Bool) : List Char → Option Tagged
  | [] => none
  | c :: rest =>
    if atStart && c = '@' && rest.head?.any isTagStart then
      some {
        before := []
        tag := '@' :: rest.takeWhile Identifier.isChar
        after := rest.dropWhile Identifier.isChar }
    else
      (findTagFrom? (Text.isBlank c) rest).map fun found => { found with before := c :: found.before }

def findTag? (content : List Char) : Option Tagged :=
  findTagFrom? true content

def hardBreak : List Char := [' ', ' ', '\n']

/-- The paragraph `text` with one more line of the comment at its end. -/
def push (text line : List Char) : List Char :=
  match content line with
  | [] => text
  | inner =>
    match findTag? inner with
    | some found => text ++ hardBreak ++ found.before ++ ['_'] ++ found.tag ++ ['_'] ++ found.after
    | none =>
      let space := if text = [] || text.getLast? = some '\n' then [] else [' ']
      text ++ space ++ inner

def finish (text : List Char) : String :=
  String.ofList (Text.trim text)

/-- The paragraph for the lines of one comment. -/
def render (lines : List (List Char)) : String :=
  finish (lines.foldl push [])

end ScriptIndex.DocComment
