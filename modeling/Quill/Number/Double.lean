set_option autoImplicit false

namespace Quill

def twoPow (n : Nat) : Nat :=
  Nat.pow 2 n

def tenPow (n : Nat) : Nat :=
  Nat.pow 10 n

/-- The nonnegative real `significand * 2 ^ exponent`. -/
structure Magnitude where
  significand : Nat
  exponent : Int
  deriving DecidableEq

inductive Double where
  | finite (negative : Bool) (magnitude : Magnitude)
  | infinite (negative : Bool)
  | nan
  deriving DecidableEq

namespace Double

def ofBits (bits : Nat) : Double :=
  let negative := bits / twoPow 63 % 2 == 1
  let exponent := bits / twoPow 52 % 2048
  let fraction := bits % twoPow 52
  if exponent = 2047 then
    if fraction = 0 then .infinite negative else .nan
  else if exponent = 0 then .finite negative ⟨fraction, -1074⟩
  else .finite negative ⟨twoPow 52 + fraction, Int.ofNat exponent - 1075⟩

def ofFloat (x : Float) : Double :=
  ofBits x.toBits.toNat

end Double

def Magnitude.toNat? (x : Magnitude) : Option Nat :=
  match x.exponent with
  | .ofNat e => some (x.significand * twoPow e)
  | .negSucc e =>
    if x.significand % twoPow (e + 1) = 0 then some (x.significand / twoPow (e + 1)) else none

end Quill
