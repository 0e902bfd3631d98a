set_option autoImplicit false

namespace Quill.Number

def digitValue (c : Char) : Nat :=
  c.toNat - '0'.toNat

def natOfDigits (digits : List Char) : Nat :=
  digits.foldl (fun n c => 10 * n + digitValue c) 0

/-- Magnitudes past these bounds are infinite or zero whatever their digits, so that no power of
ten larger than this is ever formed. -/
def exponentBound : Int := 400

def ofDecimal (digits : Nat) (exponent : Int) : Float :=
  let size : Int := (Nat.toDigits 10 digits).length
  if digits = 0 then 0
  else if size + exponent < -exponentBound then 0
  else if exponentBound < size + exponent then 1 / 0
  else Float.ofScientific digits (exponent < 0) exponent.natAbs

def readMantissa? (text : List Char) : Option (Nat × Int × List Char) :=
  let whole := text.takeWhile Char.isDigit
  let (fraction, rest) :=
    match text.dropWhile Char.isDigit with
    | '.' :: rest => (rest.takeWhile Char.isDigit, rest.dropWhile Char.isDigit)
    | rest => ([], rest)
  let digits := whole ++ fraction
  if digits.isEmpty then none
  else some (natOfDigits digits, -(fraction.length : Int), rest)

def readSign : List Char → Bool × List Char
  | '-' :: rest => (true, rest)
  | '+' :: rest => (false, rest)
  | text => (false, text)

def readExponent? : List Char → Option Int
  | [] => some 0
  | mark :: rest =>
    let (negative, digits) := readSign rest
    if mark.toLower = 'e' ∧ digits ≠ [] ∧ digits.all Char.isDigit then
      let n : Int := natOfDigits digits
      some (if negative then -n else n)
    else none

def readWord? (text : List Char) : Option Float :=
  let word := String.ofList (text.map Char.toLower)
  if word = "inf" ∨ word = "infinity" then some (1 / 0)
  else if word = "nan" then some (0 / 0)
  else none

def readMagnitude? (text : List Char) : Option Float :=
  match readMantissa? text with
  | none => readWord? text
  | some (digits, exponent, rest) =>
    (readExponent? rest).map fun shift => ofDecimal digits (exponent + shift)

def read? (text : String) : Option Float :=
  let (negative, magnitude) := readSign text.toList
  (readMagnitude? magnitude).map fun x => if negative then -x else x

end Quill.Number
