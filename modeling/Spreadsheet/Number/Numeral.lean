import Spreadsheet.Number.Shortest
import Spreadsheet.Text.Blank

namespace Spreadsheet.Number

def magnitude (x : Float) : Nat :=
  x.toBits.toNat % Nat.pow 2 63

def isNegative (x : Float) : Bool :=
  Nat.pow 2 63 ≤ x.toBits.toNat

def isFinite (x : Float) : Bool :=
  magnitude x < infinityBits

def ofMagnitude (negative : Bool) (bits : Nat) : Float :=
  Float.ofBits (UInt64.ofNat (if negative then Nat.pow 2 63 + bits else bits))

def positional (d : Decimal) : List Char :=
  let places := (-d.exponent).toNat
  let whole := Nat.toDigits 10 (d.digits * Nat.pow 10 d.exponent.toNat / Nat.pow 10 places)
  if places = 0 then whole
  else
    let rest := Nat.toDigits 10 (d.digits % Nat.pow 10 places)
    whole ++ '.' :: (List.replicate (places - rest.length) '0' ++ rest)

def text (x : Float) : List Char :=
  if magnitude x = 0 then ['0']
  else
    let digits := positional (shortest (magnitude x))
    if isNegative x then '-' :: digits else digits

def readDigits (whole rest : List Char) (exponent : Int) : Nat :=
  nearestDecimal (Nat.ofDigitChars 10 (whole ++ rest) 0) (exponent - rest.length)

def splitSign : List Char → Bool × List Char
  | '-' :: cs => (true, cs)
  | '+' :: cs => (false, cs)
  | cs => (false, cs)

def readExponent? : List Char → Option Int
  | [] => some 0
  | c :: cs =>
    let (negative, digits) := splitSign cs
    if (c = 'e' ∨ c = 'E') ∧ digits ≠ [] ∧ digits.all Char.isDigit then
      let n := Nat.ofDigitChars 10 digits 0
      some (if negative then -n else n)
    else none

def splitFraction : List Char → List Char × List Char
  | '.' :: cs => (cs.takeWhile Char.isDigit, cs.dropWhile Char.isDigit)
  | cs => ([], cs)

def ofChars? (cs : List Char) : Option Float := do
  let (negative, unsigned) := splitSign (Text.trim cs)
  let whole := unsigned.takeWhile Char.isDigit
  let (rest, afterRest) := splitFraction (unsigned.dropWhile Char.isDigit)
  let exponent ← readExponent? afterRest
  let bits := readDigits whole rest exponent
  if whole ++ rest ≠ [] ∧ bits < infinityBits then some (ofMagnitude negative bits) else none

def ofText? (s : String) : Option Float :=
  ofChars? s.toList

end Spreadsheet.Number
