import ScriptIndex.Decimal
import ScriptIndex.Text.Utf8

/-!
# JSON values

Settings and messages are JSON. Objects keep their members in the order in which they were written.

* `Json` — the values, with whole numbers told apart from all others;
* `Json.get?` and the readers beside it — the parts of a value, if it has the right shape;
* `Json.render` — the text of a value on one line.
-/

namespace ScriptIndex

inductive Json where
  | null
  | bool (value : Bool)
  | int (value : Int)
  /-- A number with a fraction or an exponent, or one that is too large to be kept exactly. -/
  | real (value : Float)
  | str (value : String)
  | arr (items : List Json)
  | obj (members : List (String × Json))
deriving Inhabited

namespace Json

/-! ### Parts of a value -/

def get? (key : String) : Json → Option Json
  | obj members => members.lookup key
  | _ => none

/-- The member of an object, where `null` counts as absent. -/
def getSome? (key : String) (json : Json) : Option Json :=
  match json.get? key with
  | some null | none => none
  | some value => some value

def str? : Json → Option String
  | str value => some value
  | _ => none

def bool? : Json → Option Bool
  | bool value => some value
  | _ => none

def int? : Json → Option Int
  | int value => some value
  | _ => none

/-- The value of a whole number that is not negative. -/
def nat? : Json → Option Nat
  | int (.ofNat value) => some value
  | _ => none

def arr? : Json → Option (List Json)
  | arr items => some items
  | _ => none

def obj? : Json → Option (List (String × Json))
  | obj members => some members
  | _ => none

/-! ### Building values -/

/-- A whole number that is not negative. -/
def nat (n : Nat) : Json :=
  int (.ofNat n)

def strings (values : List String) : Json :=
  arr (values.map str)

def orNull (value : Option Json) : Json :=
  value.getD null

/-- A member that is left out if there is no value for it. -/
def optional (key : String) (value : Option Json) : List (String × Json) :=
  match value with
  | some value => [(key, value)]
  | none => []

/-! ### The text of a value -/

/-- A character by its number, in four digits. -/
def escapeByNumber (c : Char) : List Char :=
  let n := c.toNat
  ['\\', 'u', Text.hexDigit (n / 4096 % 16), Text.hexDigit (n / 256 % 16),
    Text.hexDigit (n / 16 % 16), Text.hexDigit (n % 16)]

/-- The characters that stand in a string only by their number: controls, and those that some
readers take for the end of a line. -/
def isNumbered (c : Char) : Bool :=
  c.toNat < 0x20 || c = '\u0085' || c = '\u2028' || c = '\u2029'

/-- How a character is written in a string. -/
def escape (c : Char) : List Char :=
  if c = '"' then ['\\', '"']
  else if c = '\\' then ['\\', '\\']
  else if c = '\n' then ['\\', 'n']
  else if c = '\r' then ['\\', 'r']
  else if c = '\t' then ['\\', 't']
  else if isNumbered c then escapeByNumber c
  else [c]

def quote (s : String) : String :=
  "\"" ++ String.ofList (s.toList.flatMap escape) ++ "\""

mutual

/-- The text of a value, on one line and without blanks. -/
def render : Json → String
  | null => "null"
  | bool true => "true"
  | bool false => "false"
  | int value => toString value
  | real value => Decimal.renderFloat value
  | str value => quote value
  | arr items => "[" ++ ",".intercalate (renderItems items) ++ "]"
  | obj members => "\x7b" ++ ",".intercalate (renderMembers members) ++ "\x7d"

def renderItems : List Json → List String
  | [] => []
  | item :: rest => render item :: renderItems rest

def renderMembers : List (String × Json) → List String
  | [] => []
  | (key, value) :: rest => (quote key ++ ":" ++ render value) :: renderMembers rest

end

end Json

end ScriptIndex
