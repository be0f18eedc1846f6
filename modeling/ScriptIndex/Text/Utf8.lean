/-!
# Bytes and characters

Paths are bytes, and they are shown as text. A text is written in UTF-8, one to four bytes for each
character; bytes that are no UTF-8 are shown by replacement characters. Where a byte or a character
must not stand itself, its number is written in base sixteen.

* `Text.encode` — the bytes of a text;
* `Text.decode` — the text of bytes, with one replacement character for each stretch of bytes that
  starts like a character and does not go on like one, and for each byte that starts none;
* `Text.hexDigit`, `Text.hexValue?` — digits of base sixteen and their numbers.
-/

namespace ScriptIndex.Text

def encode (s : List Char) : List UInt8 :=
  s.flatMap String.utf8EncodeChar

/-- What is shown in the place of bytes that are no character. -/
def replacement : Char := '�'

/-- A character of which the first bytes are read. -/
structure Begun where
  /-- The number made up by the bytes so far. -/
  value : Nat
  /-- How many bytes are still to come. -/
  missing : Nat
  /-- The least byte that can come next. -/
  least : UInt8 := 0x80
  /-- The greatest byte that can come next. -/
  greatest : UInt8 := 0xBF
deriving DecidableEq, Repr

/-- The character that a byte starts, if it starts one of several bytes. The second byte is limited
where a shorter form, a surrogate or a number that is too large would be written otherwise. -/
def begin? (byte : UInt8) : Option Begun :=
  if 0xC2 ≤ byte ∧ byte ≤ 0xDF then some { value := byte.toNat % 32, missing := 1 }
  else if byte = 0xE0 then some { value := 0, missing := 2, least := 0xA0 }
  else if byte = 0xED then some { value := 13, missing := 2, greatest := 0x9F }
  else if 0xE1 ≤ byte ∧ byte ≤ 0xEF then some { value := byte.toNat % 16, missing := 2 }
  else if byte = 0xF0 then some { value := 0, missing := 3, least := 0x90 }
  else if 0xF1 ≤ byte ∧ byte ≤ 0xF3 then some { value := byte.toNat % 8, missing := 3 }
  else if byte = 0xF4 then some { value := 4, missing := 3, greatest := 0x8F }
  else none

/-- Takes the first byte of a character: what is shown already, and what is begun. -/
def first (byte : UInt8) : List Char × Option Begun :=
  if byte < 0x80 then ([Char.ofNat byte.toNat], none)
  else
    match begin? byte with
    | some begun => ([], some begun)
    | none => ([replacement], none)

/-- Takes the next byte of a character. A byte that cannot come next starts another one. -/
def next (begun : Begun) (byte : UInt8) : List Char × Option Begun :=
  if begun.least ≤ byte ∧ byte ≤ begun.greatest then
    let value := begun.value * 64 + byte.toNat % 64
    if begun.missing = 1 then ([Char.ofNat value], none)
    else ([], some { value, missing := begun.missing - 1 })
  else
    let (shown, begun) := first byte
    (replacement :: shown, begun)

/-- The text of bytes that follow those of a begun character. -/
def decodeFrom : Option Begun → List UInt8 → List Char
  | none, [] => []
  | some _, [] => [replacement]
  | begun, byte :: rest =>
    let (shown, begun) :=
      match begun with
      | none => first byte
      | some begun => next begun byte
    shown ++ decodeFrom begun rest

def decode (bytes : List UInt8) : List Char :=
  decodeFrom none bytes

/-! ### Base sixteen -/

/-- The digit of a number below sixteen, in lower case. -/
def hexDigit (n : Nat) : Char :=
  if n < 10 then Char.ofNat (n + 48) else Char.ofNat (n + 87)

/-- The number of a digit. -/
def hexValue? (c : Char) : Option Nat :=
  if '0' ≤ c ∧ c ≤ '9' then some (c.toNat - 48)
  else if 'a' ≤ c ∧ c ≤ 'f' then some (c.toNat - 87)
  else if 'A' ≤ c ∧ c ≤ 'F' then some (c.toNat - 55)
  else none

end ScriptIndex.Text
