import ScriptIndex.Json
import ScriptIndex.Text.Visible

/-!
# What is wrong with a JSON value

Settings and parameters are JSON values of a known form. A value that does not have it is refused
with the first thing that is wrong.

* `JsonFault` — what can be wrong;
* `JsonFault.message` — what is wrong, in words;
* `Json.readText`, `Json.readSwitch` — values that may be left out.
-/

namespace ScriptIndex

inductive JsonFault where
  | wrongType (found : Json) (expected : String)
  | outOfRange (found : Int) (expected : String)
  /-- A list of values ends too early, after `count` of them. -/
  | tooShort (count : Nat) (expected : String)
  /-- A list of `count` values is too long. -/
  | tooLong (count : Nat)
  | missing (key : String)
  /-- A word is none of those that are known. -/
  | unknownWord (found : String) (known : List String)
  | noScheme (uri : String)
  /-- A value does not fit in some other way. -/
  | unfit

namespace JsonFault

/-- A value, as named in a message. -/
def describe : Json → String
  | .null => "null"
  | .bool value => "boolean `" ++ (if value then "true" else "false") ++ "`"
  | .int value => "integer `" ++ toString value ++ "`"
  | .real value => "floating point `" ++ Decimal.renderFloat value ++ "`"
  | .str value => "string " ++ Text.quoteShown value
  | .arr _ => "sequence"
  | .obj _ => "map"

def message : JsonFault → String
  | wrongType found expected => "invalid type: " ++ describe found ++ ", expected " ++ expected
  | outOfRange found expected => "invalid value: " ++ describe (.int found) ++ ", expected " ++ expected
  | tooShort count expected => "invalid length " ++ toString count ++ ", expected " ++ expected
  | tooLong count => "invalid length " ++ toString count ++ ", expected fewer elements in array"
  | missing key => "missing field `" ++ key ++ "`"
  | unknownWord found known =>
    "unknown variant `" ++ found ++ "`, expected one of " ++
      ", ".intercalate (known.map fun word => "`" ++ word ++ "`")
  | noScheme uri => "relative URL without a base: " ++ Text.quoteShown uri
  | unfit => "Invalid params"

end JsonFault

namespace Json

/-- A text, where `null` counts as not given. -/
def readText : Json → Except JsonFault (Option String)
  | .null => .ok none
  | .str value => .ok (some value)
  | found => .error (.wrongType found "a string")

/-- A truth value, where `null` counts as not given. -/
def readSwitch : Json → Except JsonFault (Option Bool)
  | .null => .ok none
  | .bool value => .ok (some value)
  | found => .error (.wrongType found "a boolean")

end Json

end ScriptIndex
