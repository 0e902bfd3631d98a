set_option autoImplicit false

namespace Quill.Utf8

/-- A character that has begun: how many of its bytes were seen, how many are owed, and the range
the next byte must lie in. -/
structure Partial where
  seen : Nat
  owed : Nat
  low : UInt8
  high : UInt8
  code : Nat
  deriving DecidableEq

inductive Piece where
  | char (c : Char)
  | malformed (size : Nat)
  | truncated (size : Nat)
  deriving DecidableEq

/-- The start of a character: complete, begun, or impossible. -/
inductive Lead where
  | complete (c : Char)
  | begun (p : Partial)
  | impossible
  deriving DecidableEq

def lead (b : UInt8) : Lead :=
  let n := b.toNat
  if n < 0x80 then .complete (Char.ofNat n)
  else if n < 0xC2 then .impossible
  else if n < 0xE0 then .begun ⟨1, 1, 0x80, 0xBF, n - 0xC0⟩
  else if n = 0xE0 then .begun ⟨1, 2, 0xA0, 0xBF, 0⟩
  else if n = 0xED then .begun ⟨1, 2, 0x80, 0x9F, 0xD⟩
  else if n < 0xF0 then .begun ⟨1, 2, 0x80, 0xBF, n - 0xE0⟩
  else if n = 0xF0 then .begun ⟨1, 3, 0x90, 0xBF, 0⟩
  else if n < 0xF4 then .begun ⟨1, 3, 0x80, 0xBF, n - 0xF0⟩
  else if n = 0xF4 then .begun ⟨1, 3, 0x80, 0x8F, 4⟩
  else .impossible

def start (b : UInt8) : List Piece × Option Partial :=
  match lead b with
  | .complete c => ([.char c], none)
  | .begun p => ([], some p)
  | .impossible => ([.malformed 1], none)

def Partial.feed (p : Partial) (b : UInt8) : List Piece × Option Partial :=
  if p.low ≤ b ∧ b ≤ p.high then
    let code := p.code * 64 + (b.toNat - 0x80)
    if p.owed ≤ 1 then ([.char (Char.ofNat code)], none)
    else ([], some ⟨p.seen + 1, p.owed - 1, 0x80, 0xBF, code⟩)
  else
    let (pieces, next) := start b
    (.malformed p.seen :: pieces, next)

structure Reader where
  found : List Piece := []
  begun : Option Partial := none
  deriving DecidableEq

def Reader.feed (r : Reader) (b : UInt8) : Reader :=
  let (pieces, begun) :=
    match r.begun with
    | none => start b
    | some p => p.feed b
  ⟨pieces.reverse ++ r.found, begun⟩

def Reader.finish (r : Reader) : List Piece :=
  match r.begun with
  | none => r.found.reverse
  | some p => (.truncated p.seen :: r.found).reverse

def pieces (bytes : List UInt8) : List Piece :=
  (bytes.foldl Reader.feed {}).finish

/-- The replacement character stands for an ill-formed part. -/
def Piece.lenient : Piece → Char
  | .char c => c
  | .malformed _ | .truncated _ => '\uFFFD'

def decodeLossy (bytes : List UInt8) : String :=
  String.ofList ((pieces bytes).map Piece.lenient)

inductive Fault where
  | malformed (size index : Nat)
  | truncated (index : Nat)
  deriving DecidableEq

def Fault.message : Fault → String
  | .malformed size index => s!"invalid utf-8 sequence of {size} bytes from index {index}"
  | .truncated index => s!"incomplete utf-8 byte sequence from index {index}"

def firstFault? : Nat → List Piece → Option Fault
  | _, [] => none
  | index, .char c :: rest => firstFault? (index + c.utf8Size) rest
  | index, .malformed size :: _ => some (.malformed size index)
  | index, .truncated _ :: _ => some (.truncated index)

def decode (bytes : List UInt8) : Except Fault String :=
  match firstFault? 0 (pieces bytes) with
  | none => .ok (decodeLossy bytes)
  | some fault => .error fault

def encode (text : String) : List UInt8 :=
  text.toUTF8.toList

end Quill.Utf8
