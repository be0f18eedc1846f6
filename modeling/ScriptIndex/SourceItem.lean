import ScriptIndex.DocComment
import ScriptIndex.Header
import ScriptIndex.Text.Lines

/-!
# What a source file declares

A source file is read line by line, with three things carried from line to line: whether the last
line was an export mark, the block comment that is still open, and the last comment that was closed.

* `SourceItem` — a function declaration or a require directive;
* `Reading.comment` — how a line opens and closes block comments, and what of it is code;
* `Reading.line` — what one line adds;
* `SourceItem.scan` — all items of a file, in order.
-/

namespace ScriptIndex

inductive SourceItem where
  | function (declaration : Declaration)
  /-- A directive that pulls in `module`, on a line counted from zero. -/
  | require (module : String) (line : Nat)
deriving DecidableEq, Repr

/-- What is carried from line to line. -/
structure Reading where
  /-- The last line that is not blank was an export mark. -/
  exportMarked : Bool := false
  /-- The text so far of the comment that is still open. -/
  openComment : Option (List Char) := none
  /-- The last comment closed since the last blank line. -/
  lastComment : Option String := none
deriving DecidableEq, Repr

/-- The parts of a line that lie outside comments. -/
structure CodeSpans where
  /-- Up to the opener of a comment. -/
  before : List Char := []
  /-- From the closer of a comment on. -/
  after : List Char := []
deriving DecidableEq, Repr

namespace Reading

/-- The line that marks the declaration below it as exported starts like this. -/
def exportMark : List Char := "[export]".toList

def requireMark : List Char := "require ".toList

/-- Adds a line to the open comment `text`, which the last closer on the line closes. -/
def inComment (reading : Reading) (before text line : List Char) : Reading × CodeSpans :=
  let text := DocComment.push text line
  match Text.cutLast? DocComment.closer line with
  | none => ({ reading with openComment := some text }, { before })
  | some (_, after) =>
    ({ reading with openComment := none, lastComment := some (DocComment.finish text) },
      { before, after })

/-- Follows the block comments through a line. Inside a comment an opener is just text. -/
def comment (reading : Reading) (line : List Char) : Reading × CodeSpans :=
  match reading.openComment with
  | some text => reading.inComment [] text line
  | none =>
    match Text.cut? DocComment.opener line with
    | none => (reading, { before := line })
    | some (before, _) => reading.inComment before [] line

/-- The header in the code of a line, before its comment if there is one there. -/
def header? (code : CodeSpans) : Option Header :=
  Header.find? code.before <|> Header.find? code.after

/-- The function that `header` declares on a line. -/
def declare (reading : Reading) (file : Path) (number : Nat) (header : Header) : Declaration where
  name := String.ofList header.name
  parameters := header.parameters
  exported := reading.exportMarked
  file := file
  line := number
  doc := reading.lastComment.getD ""

/-- What a line adds, and what is carried to the next one. A blank line only detaches the last
comment, and a directive is read even inside a comment. -/
def line (reading : Reading) (file : Path) (number : Nat) (line : List Char) :
    Reading × Option SourceItem :=
  if Text.isBlankText line then
    ({ reading with lastComment := none }, none)
  else
    match Text.afterPrefix? requireMark line with
    | some rest =>
      let module := Text.trim rest
      ({ reading with exportMarked := false },
        if module = [] then none else some (.require (String.ofList module) number))
    | none =>
      let (reading, code) := reading.comment line
      ({ reading with exportMarked := exportMark.isPrefixOf line },
        (header? code).map fun header => .function (reading.declare file number header))

/-- The items of the lines from number `number` on.  Lines are counted without a bound; in a text of
fewer than 2 ^ 32 lines every number is also that of a 32-bit counter. -/
def items (reading : Reading) (file : Path) (number : Nat) : List (List Char) → List SourceItem
  | [] => []
  | line :: rest =>
    let (next, item) := reading.line file number line
    item.toList ++ next.items file (number + 1) rest

end Reading

/-- The items of `file` with contents `text`, in order. -/
def SourceItem.scan (file : Path) (text : List Char) : List SourceItem :=
  ({} : Reading).items file 0 (Text.lines text)

end ScriptIndex
