import Quill.Number.Shortest

set_option autoImplicit false

namespace Quill

def digitsOf (n : Nat) : List Char :=
  Nat.toDigits 10 n

def zeros (n : Nat) : List Char :=
  List.replicate n '0'

namespace Decimal

/-- How many digits stand before the decimal point; zero or less if the first of them follow it. -/
def point (d : Decimal) : Int :=
  (digitsOf d.digits).length + d.exponent

def positional (d : Decimal) : String :=
  let digits := digitsOf d.digits
  match d.exponent, d.point with
  | .ofNat e, _ => String.ofList (digits ++ zeros e)
  | .negSucc _, .ofNat 0 => String.ofList ('0' :: '.' :: digits)
  | .negSucc _, .ofNat p => String.ofList (digits.take p ++ '.' :: digits.drop p)
  | .negSucc _, .negSucc p => String.ofList ('0' :: '.' :: zeros (p + 1) ++ digits)

def scientific (d : Decimal) : String :=
  let mantissa :=
    match digitsOf d.digits with
    | [] => []
    | [c] => [c]
    | c :: rest => c :: '.' :: rest
  let exponent := d.point - 1
  let sign := if exponent < 0 then '-' else '+'
  String.ofList (mantissa ++ 'e' :: sign :: digitsOf exponent.natAbs)

end Decimal

def signed (negative : Bool) (text : String) : String :=
  if negative then "-" ++ text else text

def Double.plain : Double → String
  | .nan => "NaN"
  | .infinite negative => signed negative "inf"
  | .finite negative magnitude =>
    if magnitude.significand = 0 then signed negative "0"
    else signed negative (magnitude.shortest .up).positional

end Quill
