import ScriptIndex.Path
import ScriptIndex.Text.Cut

/-!
# Declarations

A function declaration as the index keeps it, and the three ways it is shown:

* `Parameter.label` — a parameter with its type, blanks in the type left out;
* `Declaration.signature` — the name with all parameters;
* `Declaration.markdown` — the documentation followed by the signature as code.
-/

namespace ScriptIndex

structure Parameter where
  name : String
  /-- Its type, as written after the colon. -/
  type : Option String
deriving DecidableEq, Repr

def Parameter.label (p : Parameter) : String :=
  match p.type with
  | some type => p.name ++ ": " ++ String.ofList (type.toList.filter fun c => !Text.isBlank c)
  | none => p.name

/-- A function, as declared by its header. -/
structure Declaration where
  name : String
  parameters : List Parameter
  /-- Whether an export mark stands above the header. -/
  exported : Bool
  file : Path
  /-- The line of the header, counted from zero. -/
  line : Nat
  /-- The documentation above the header, empty if there is none. -/
  doc : String
deriving DecidableEq, Repr

namespace Declaration

/-- The declaration as seen from a file that requires the declaring one: only the export mark is lost. -/
def asRequired (d : Declaration) : Declaration :=
  { d with exported := false }

/-- The name and the parameters, as in a header. -/
def signature (d : Declaration) : String :=
  d.name ++ "(" ++ ", ".intercalate (d.parameters.map Parameter.label) ++ ")"

/-- The documentation, if any, and the signature as a block of code. -/
def markdown (d : Declaration) : String :=
  (if d.doc = "" then "" else d.doc ++ "\n\n") ++ "```dascript\n" ++ d.signature ++ "\n```"

end Declaration

end ScriptIndex
