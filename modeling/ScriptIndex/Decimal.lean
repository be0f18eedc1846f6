/-!
# Decimal numbers

Numbers with a fraction are kept in binary, with 53 digits, and read and written in decimal.

* `Decimal` — digits and a power of ten;
* `Decimal.toFloat?` — the binary number of a decimal, none if it is too large;
* `Decimal.shortest` — the decimal with the fewest digits that stands for a binary number, and the
  nearest of those;
* `Decimal.render` — the text of a decimal.
-/

namespace ScriptIndex

/-- The number `digits` times ten to the power `exponent`. -/
structure Decimal where
  digits : Nat
  exponent : Int
deriving DecidableEq, Repr

namespace Decimal

/-! ### Reading -/

/-- The greatest power of ten that has a binary number. -/
def maxPower : Nat := 308

def powerOfTen (n : Nat) : Float :=
  Float.ofScientific 1 false n

/-- The binary number of a decimal, none if it is too large. The digits are rounded first, and then
their product or quotient with a power of ten; a power beyond the greatest takes two quotients. -/
def toFloat? (d : Decimal) : Option Float :=
  let value := Float.ofNat d.digits
  if d.digits = 0 then some 0
  else
    match d.exponent with
    | .ofNat n =>
      if n > maxPower then none
      else
        let product := value * powerOfTen n
        if product.isInf then none else some product
    | .negSucc n =>
      if n < maxPower then some (value / powerOfTen (n + 1))
      else if n < 2 * maxPower then some (value / powerOfTen maxPower / powerOfTen (n + 1 - maxPower))
      else some 0

/-! ### Choosing digits -/

/-- A positive binary number with the numbers around it that are rounded to it, all in quarters of
the place of its last binary digit. -/
structure Rounded where
  /-- The least number that may be rounded to it. -/
  least : Nat
  value : Nat
  /-- The greatest number that may be rounded to it. -/
  greatest : Nat
  /-- The power of two of a quarter of the last place. -/
  exponent : Int
  /-- Whether the least and the greatest are rounded to it, too. -/
  closed : Bool
deriving DecidableEq, Repr

/-- The binary number with 52 stored digits and a stored exponent. Below a power of two the numbers
lie twice as close as above it. -/
def Rounded.ofParts (stored exponent : Nat) : Rounded :=
  let digits := if exponent = 0 then stored else Nat.pow 2 52 + stored
  let below := if stored = 0 && exponent > 1 then 1 else 2
  { least := 4 * digits - below
    value := 4 * digits
    greatest := 4 * digits + 2
    exponent := Int.ofNat (max exponent 1) - 1077
    closed := digits % 2 = 0 }

/-- The factors that turn quarters of the last binary place, and then places of the power `k` of ten,
into a common unit. -/
def commonUnit (exponent k : Int) : Nat × Nat :=
  (Nat.pow 2 exponent.toNat * Nat.pow 10 (-k).toNat,
    Nat.pow 2 (-exponent).toNat * Nat.pow 10 k.toNat)

/-- Whether `digits` times ten to the power `k` is rounded to the given number. -/
def standsFor (r : Rounded) (digits : Nat) (k : Int) : Bool :=
  let (binary, decimal) := commonUnit r.exponent k
  let place := digits * decimal
  (r.least * binary < place && place < r.greatest * binary) ||
    (r.closed && (place = r.least * binary || place = r.greatest * binary))

/-- The multiple of ten to the power `k` that is rounded to the given number, if there is one; the
nearest of them, and of two that are equally near the even one. -/
def multiple? (r : Rounded) (k : Int) : Option Nat :=
  let (binary, decimal) := commonUnit r.exponent k
  let floor := r.value * binary / decimal
  let twice := 2 * (r.value * binary)
  let middle := (2 * floor + 1) * decimal
  let up := twice > middle || (twice = middle && floor % 2 = 1)
  let near := if up then floor + 1 else floor
  let far := if up then floor else floor + 1
  if standsFor r near k then some near
  else if standsFor r far k then some far
  else none

/-- Tries the powers of ten from `k` downwards. -/
def search (r : Rounded) : (budget : Nat) → (k : Int) → Decimal
  | 0, k => { digits := 0, exponent := k }
  | budget + 1, k =>
    match multiple? r k with
    | some digits => { digits, exponent := k }
    | none => search r budget (k - 1)

/-- The decimal with the fewest digits that stands for a number without its sign. All powers of ten
that can be needed lie between 308 and -324. -/
def shortest (value : Float) : Decimal :=
  let bits := value.abs.toBits.toNat
  if bits = 0 then { digits := 0, exponent := 0 }
  else search (.ofParts (bits % Nat.pow 2 52) (bits / Nat.pow 2 52)) 633 308

/-! ### Writing -/

/-- The powers of ten of a first digit for which no exponent is written, both ends included. -/
def plainPowers : Int × Int := (-5, 15)

def zeros (n : Nat) : String :=
  String.ofList (List.replicate n '0')

/-- Digits with a point after the first `count` of them, of which there are more. -/
def pointAfter (count : Nat) (digits : List Char) : String :=
  String.ofList (digits.take count) ++ "." ++ String.ofList (digits.drop count)

/-- The text of a decimal: with a point, or with the power of ten of its first digit if the point
would be far away. -/
def render (d : Decimal) : String :=
  let digits := (toString d.digits).toList
  let power := d.exponent + digits.length - 1
  if d.digits = 0 then "0.0"
  else if plainPowers.1 ≤ power && power ≤ plainPowers.2 then
    if d.exponent ≥ 0 then String.ofList digits ++ zeros d.exponent.toNat ++ ".0"
    else if power ≥ 0 then pointAfter (power.toNat + 1) digits
    else "0." ++ zeros (-power - 1).toNat ++ String.ofList digits
  else
    let mantissa := if digits.length = 1 then String.ofList digits else pointAfter 1 digits
    mantissa ++ "e" ++ (if power < 0 then "-" else "+") ++ toString power.natAbs

def renderFloat (value : Float) : String :=
  (if value.toBits.toNat ≥ Nat.pow 2 63 then "-" else "") ++ (shortest value).render

end Decimal

end ScriptIndex
