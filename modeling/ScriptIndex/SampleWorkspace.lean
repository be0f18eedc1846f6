/-!
# Generated workspaces

Source files of any number and size, for measuring and for trying things out. The files require each
other in a chain, every function has documentation, and every other one is exported.

* `SampleWorkspace` — the measures of a workspace, with three of ready-made size;
* `SampleWorkspace.text` — the text of one of its files.
-/

namespace ScriptIndex

/-- The measures of a generated workspace. -/
structure SampleWorkspace where
  files : Nat
  functions : Nat
  /-- How many files, from the first on, require their successor. -/
  depth : Nat
  /-- How many lines without a declaration each file ends in. -/
  extra : Nat
deriving DecidableEq, Repr

namespace SampleWorkspace

def small : SampleWorkspace := { files := 10, functions := 5, depth := 3, extra := 5 }

def medium : SampleWorkspace := { files := 50, functions := 10, depth := 10, extra := 10 }

def large : SampleWorkspace := { files := 200, functions := 20, depth := 15, extra := 20 }

/-- Whether a file requires its successor. -/
def chains (sample : SampleWorkspace) (index : Nat) : Bool :=
  index < sample.depth && index + 1 < sample.files

/-- The directive of a file, with a blank line, if it requires its successor. -/
def directive (sample : SampleWorkspace) (index : Nat) : String :=
  if sample.chains index then s!"require file_{index + 1}\n\n" else ""

/-- One function of a file, with its documentation and a blank line. -/
def function (index k : Nat) : String :=
  s!"/**\n * Function {k} of file {index}\n * @param x first operand\n */\n" ++
  (if k % 2 = 0 then "[export]\n" else "") ++
  s!"def func_{index}_{k}(x: int, y: float)\n    let result = x + int(y) * {k + 1}\n" ++
  "    return result\n\n"

/-- One line of a file without a declaration. -/
def extraLine (index k : Nat) : String :=
  s!"var var_{index}_{k} = {k + 1}\n"

def text (sample : SampleWorkspace) (index : Nat) : String :=
  sample.directive index ++
  String.join ((List.range sample.functions).map (function index)) ++
  String.join ((List.range sample.extra).map (extraLine index))

def fileName (index : Nat) : String :=
  s!"file_{index}.das"

end SampleWorkspace

end ScriptIndex
