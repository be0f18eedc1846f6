import ScriptIndex.Json

/-!
# Reading JSON

* `Json.readString?` — the characters of a string up to its closing quote;
* `Json.readValue?` — one value at the start of a text, and what follows it;
* `Json.parse?` — a text that holds exactly one value.

Every nested value starts at a later character, so the length of the text bounds the depth.
-/

namespace ScriptIndex.Json

/-- The blanks that may stand between the parts of a value. -/
def isGap (c : Char) : Bool :=
  c = ' ' || c = '\n' || c = '\r' || c = '\t'

/-- A text without gaps in front. -/
def skipGaps (s : List Char) : List Char :=
  s.dropWhile isGap

/-- The number written by four digits of base sixteen. -/
def hexNumber? (a b c d : Char) : Option Nat := do
  let a ← Text.hexValue? a
  let b ← Text.hexValue? b
  let c ← Text.hexValue? c
  let d ← Text.hexValue? d
  return ((a * 16 + b) * 16 + c) * 16 + d

/-- The character that a letter after a backslash stands for. -/
def unescape? (c : Char) : Option Char :=
  if c = '"' || c = '\\' || c = '/' then some c
  else if c = 'n' then some '\n'
  else if c = 'r' then some '\r'
  else if c = 't' then some '\t'
  else if c = 'b' then some '\x08'
  else if c = 'f' then some '\x0c'
  else none

/-- The code units of a string up to its closing quote, and what follows the quote. A character that
is written out is one unit, whatever its number. -/
def readUnits? : List Char → Option (List Nat × List Char)
  | [] => none
  | '"' :: rest => some ([], rest)
  | '\\' :: 'u' :: a :: b :: c :: d :: rest =>
    match hexNumber? a b c d, readUnits? rest with
    | some unit, some (units, after) => some (unit :: units, after)
    | _, _ => none
  | '\\' :: c :: rest =>
    match unescape? c, readUnits? rest with
    | some char, some (units, after) => some (char.toNat :: units, after)
    | _, _ => none
  | c :: rest => (readUnits? rest).map fun (units, after) => (c.toNat :: units, after)

/-- The characters of code units, where two surrogates make one character. -/
def ofUnits : List Nat → List Char
  | [] => []
  | [unit] => [Char.ofNat unit]
  | high :: low :: rest =>
    if 0xD800 ≤ high ∧ high < 0xDC00 ∧ 0xDC00 ≤ low ∧ low < 0xE000 then
      Char.ofNat (0x10000 + (high - 0xD800) * 0x400 + (low - 0xDC00)) :: ofUnits rest
    else Char.ofNat high :: ofUnits (low :: rest)

/-- The text of a string whose opening quote is read, and what follows its closing quote. -/
def readString? (s : List Char) : Option (String × List Char) :=
  (readUnits? s).map fun (units, rest) => (String.ofList (ofUnits units), rest)

/-- The characters a number is made of. -/
def isNumberChar (c : Char) : Bool :=
  c.isDigit || c = '-' || c = '+' || c = '.' || c = 'e' || c = 'E'

/-- The number written by some digits. -/
def digitsValue (digits : List Char) : Nat :=
  digits.foldl (fun n c => n * 10 + (c.toNat - 48)) 0

/-- The greatest number that is kept exactly. -/
def maxWhole : Nat := Nat.pow 2 64 - 1

/-- The magnitude of the least number that is kept exactly. -/
def maxNegative : Nat := Nat.pow 2 63

/-- Whether a whole number is kept exactly. A zero with a sign is not. -/
def isExact (negative : Bool) (n : Nat) : Bool :=
  if negative then 0 < n && n ≤ maxNegative else n ≤ maxWhole

/-- Takes in a digit before the point. From the first digit on for which there is no room, digits
count for their place only. -/
def takeWhole (d : Decimal) (c : Char) : Decimal :=
  let digits := d.digits * 10 + (c.toNat - 48)
  if d.exponent = 0 && digits ≤ maxWhole then { d with digits }
  else { d with exponent := d.exponent + 1 }

/-- Takes in the digits after the point, up to the first for which there is no room. -/
def takeFraction (d : Decimal) : List Char → Decimal
  | [] => d
  | c :: rest =>
    let digits := d.digits * 10 + (c.toNat - 48)
    if digits ≤ maxWhole then takeFraction { digits, exponent := d.exponent - 1 } rest else d

/-- The power of ten at the end of a number. -/
def power? (text : List Char) : Option Int :=
  let (negative, digits) :=
    match text with
    | '-' :: digits => (true, digits)
    | '+' :: digits => (false, digits)
    | digits => (false, digits)
  if digits = [] || !digits.all Char.isDigit then none
  else
    let value := Int.ofNat (digitsValue digits)
    some (if negative then -value else value)

/-- The decimal of a number without its sign: the digits before its point, and what follows them. -/
def decimal? (whole rest : List Char) : Option Decimal :=
  let before := whole.foldl takeWhole { digits := 0, exponent := 0 }
  let (d, rest) :=
    match rest with
    | '.' :: tail => (takeFraction before (tail.takeWhile Char.isDigit), tail.dropWhile Char.isDigit)
    | rest => (before, rest)
  match rest with
  | [] => some d
  | c :: tail =>
    if c = 'e' || c = 'E' then
      (power? tail).map fun power => { d with exponent := d.exponent + power }
    else none

/-- The number a text stands for, if it stands for one. -/
def number? (text : List Char) : Option Json :=
  let (negative, unsigned) :=
    match text with
    | '-' :: unsigned => (true, unsigned)
    | unsigned => (false, unsigned)
  let whole := unsigned.takeWhile Char.isDigit
  let rest := unsigned.dropWhile Char.isDigit
  if whole = [] then none
  else if rest = [] && isExact negative (digitsValue whole) then
    let value := Int.ofNat (digitsValue whole)
    some (int (if negative then -value else value))
  else
    ((decimal? whole rest).bind Decimal.toFloat?).map fun value =>
      real (if negative then -value else value)

mutual

/-- The value at the start of a text, and what follows it. -/
def readValue? : (budget : Nat) → List Char → Option (Json × List Char)
  | 0, _ => none
  | budget + 1, s =>
    match skipGaps s with
    | [] => none
    | 'n' :: 'u' :: 'l' :: 'l' :: rest => some (null, rest)
    | 't' :: 'r' :: 'u' :: 'e' :: rest => some (bool true, rest)
    | 'f' :: 'a' :: 'l' :: 's' :: 'e' :: rest => some (bool false, rest)
    | '"' :: rest => (readString? rest).map fun (text, after) => (str text, after)
    | '[' :: rest =>
      match skipGaps rest with
      | ']' :: after => some (arr [], after)
      | inner => (readItems? budget inner).map fun (items, after) => (arr items, after)
    | '\x7b' :: rest =>
      match skipGaps rest with
      | '\x7d' :: after => some (obj [], after)
      | inner => (readMembers? budget inner).map fun (members, after) => (obj members, after)
    | c :: rest =>
      let text := (c :: rest).takeWhile isNumberChar
      (number? text).map fun value => (value, (c :: rest).dropWhile isNumberChar)

/-- The items of an array up to its closing bracket. -/
def readItems? : (budget : Nat) → List Char → Option (List Json × List Char)
  | 0, _ => none
  | budget + 1, s =>
    match readValue? budget s with
    | none => none
    | some (item, rest) =>
      match skipGaps rest with
      | ']' :: after => some ([item], after)
      | ',' :: more => (readItems? budget more).map fun (items, after) => (item :: items, after)
      | _ => none

/-- The members of an object up to its closing brace. -/
def readMembers? : (budget : Nat) → List Char → Option (List (String × Json) × List Char)
  | 0, _ => none
  | budget + 1, s =>
    match skipGaps s with
    | '"' :: start =>
      match readString? start with
      | none => none
      | some (key, rest) =>
        match skipGaps rest with
        | ':' :: tail =>
          match readValue? budget tail with
          | none => none
          | some (value, rest) =>
            match skipGaps rest with
            | '\x7d' :: after => some ([(key, value)], after)
            | ',' :: more =>
              (readMembers? budget more).map fun (members, after) => ((key, value) :: members, after)
            | _ => none
        | _ => none
    | _ => none

end

/-- The value of a text that holds one value and nothing else. -/
def parse? (s : List Char) : Option Json :=
  match readValue? (2 * s.length + 2) s with
  | some (value, rest) => if skipGaps rest = [] then some value else none
  | none => none

end ScriptIndex.Json
