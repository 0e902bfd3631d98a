import Quill.Number.Text

set_option autoImplicit false

namespace Quill

inductive Json where
  | null
  | text (s : String)
  | natural (n : Nat)
  | real (x : Double)
  | array (items : List Json)
  | object (fields : List (String × Json))

namespace Json

def hexDigit (n : Nat) : Char :=
  if n < 10 then Char.ofNat ('0'.toNat + n) else Char.ofNat ('a'.toNat + (n - 10))

def escapeChar (c : Char) : List Char :=
  match c with
  | '"' => ['\\', '"']
  | '\\' => ['\\', '\\']
  | '\n' => ['\\', 'n']
  | '\r' => ['\\', 'r']
  | '\t' => ['\\', 't']
  | '\x08' => ['\\', 'b']
  | '\x0c' => ['\\', 'f']
  | c =>
    if c.toNat < 0x20 then
      ['\\', 'u', '0', '0', hexDigit (c.toNat / 16), hexDigit (c.toNat % 16)]
    else [c]

def quote (s : String) : String :=
  "\"" ++ String.ofList (s.toList.flatMap escapeChar) ++ "\""

/-- Magnitudes from a hundred-thousandth up to, and without, ten to the sixteenth are written with a
point and at least one digit behind it, all others with an exponent. -/
def decimalText (d : Decimal) : String :=
  if -4 ≤ d.point ∧ d.point ≤ 16 then
    if d.exponent < 0 then d.positional else d.positional ++ ".0"
  else d.scientific

def realText : Double → String
  | .nan | .infinite _ => "null"
  | .finite negative magnitude =>
    signed negative
      (if magnitude.significand = 0 then "0.0" else decimalText (magnitude.shortest .even))

structure Layout where
  lineBreak : Nat → String
  colon : String

def Layout.compact : Layout where
  lineBreak _ := ""
  colon := ":"

def Layout.pretty : Layout where
  lineBreak depth := "\n" ++ String.ofList (List.replicate (2 * depth) ' ')
  colon := ": "

def Layout.enclose (layout : Layout) (depth : Nat) (left right : String) : List String → String
  | [] => left ++ right
  | items =>
    let inner := layout.lineBreak (depth + 1)
    left ++ inner ++ String.intercalate ("," ++ inner) items ++ layout.lineBreak depth ++ right

mutual

def renderAt (layout : Layout) (depth : Nat) : Json → String
  | null => "null"
  | text s => quote s
  | natural n => String.ofList (digitsOf n)
  | real x => realText x
  | array items => layout.enclose depth "[" "]" (renderItems layout (depth + 1) items)
  | object fields => layout.enclose depth "\x7b" "\x7d" (renderFields layout (depth + 1) fields)

def renderItems (layout : Layout) (depth : Nat) : List Json → List String
  | [] => []
  | item :: rest => renderAt layout depth item :: renderItems layout depth rest

def renderFields (layout : Layout) (depth : Nat) : List (String × Json) → List String
  | [] => []
  | (name, value) :: rest =>
    (quote name ++ layout.colon ++ renderAt layout depth value) :: renderFields layout depth rest

end

def render (layout : Layout) (data : Json) : String :=
  renderAt layout 0 data

end Json

end Quill
