import Quill.Number.Double

set_option autoImplicit false

namespace Quill

structure Decimal where
  digits : Nat
  exponent : Int
  deriving DecidableEq

/-- Which of two equally near neighbours is taken. -/
inductive Tie where
  | up
  | even
  deriving DecidableEq

/-- The decimal grid of step `10 ^ exponent` around a magnitude: in units of `1 / unit` the
magnitude is `value`, the reals that round to it reach from `low` to `high`, and they include both
ends iff `closed`. -/
structure Grid where
  exponent : Int
  unit : Nat
  low : Nat
  value : Nat
  high : Nat
  closed : Bool
  deriving DecidableEq

namespace Grid

def around (x : Magnitude) (exponent : Int) : Grid :=
  let scale := twoPow (x.exponent - 2).toNat * tenPow (-exponent).toNat
  let unit := twoPow (2 - x.exponent).toNat * tenPow exponent.toNat
  let below := if x.significand = twoPow 52 ∧ -1074 < x.exponent then 1 else 2
  { exponent
    unit
    low := (4 * x.significand - below) * scale
    value := 4 * x.significand * scale
    high := (4 * x.significand + 2) * scale
    closed := x.significand % 2 == 0 }

def admits (g : Grid) (digits : Nat) : Bool :=
  let point := digits * g.unit
  if g.closed then g.low ≤ point && point ≤ g.high else g.low < point && point < g.high

def nearest? (g : Grid) (tie : Tie) : Option Nat :=
  let lower := g.value / g.unit
  let upper := lower + 1
  match lower != 0 && g.admits lower, g.admits upper with
  | false, false => none
  | true, false => some lower
  | false, true => some upper
  | true, true =>
    match compare (2 * g.value) ((lower + upper) * g.unit) with
    | .lt => some lower
    | .gt => some upper
    | .eq =>
      match tie with
      | .up => some upper
      | .even => some (if lower % 2 = 0 then lower else upper)

end Grid

def Decimal.ceilingExponent (bits : Int) : Int :=
  bits * 30103 / 100000 + 2

/-- Grids are tried from coarse to fine; seventeen digits always suffice. -/
def Magnitude.shortest (x : Magnitude) (tie : Tie) : Decimal :=
  let top := Decimal.ceilingExponent (x.exponent + x.significand.log2 + 1)
  let found := (List.range 24).findSome? fun (k : Nat) =>
    let exponent := top - k
    ((Grid.around x exponent).nearest? tie).map (Decimal.mk · exponent)
  found.getD ⟨0, 0⟩

end Quill
