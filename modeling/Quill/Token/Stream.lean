import Quill.Token.Scan

set_option autoImplicit false

namespace Quill

def Lexeme.item? (l : Lexeme) (line : Nat) : Option (Except Error Token) :=
  match l.content with
  | .token kind => some (.ok ⟨kind, Utf8.decodeLossy l.bytes, line⟩)
  | .fault fault => some (.error (.lexical fault line))
  | .blank | .comment => none

/-- What is left to scan, the line reached, and whether the end was given out already. -/
structure TokenStream where
  rest : List UInt8
  line : Nat := 1
  ended : Bool := false

namespace TokenStream

def next (s : TokenStream) : Option (Except Error Token) × TokenStream :=
  match _h : s.rest with
  | [] =>
    if s.ended then (none, s)
    else (some (.ok ⟨.symbol .eof, "", s.line⟩), { s with ended := true })
  | first :: rest =>
    let cut := Lexeme.next first rest
    let left : TokenStream := { s with rest := cut.2, line := s.line + cut.1.newlines }
    match cut.1.item? left.line with
    | some item => (some item, left)
    | none => left.next
termination_by s.rest.length
decreasing_by
  have := Lexeme.length_next_le first rest
  rw [_h]
  simp only [List.length_cons]
  omega

def advance (s : TokenStream) : Nat → TokenStream
  | 0 => s
  | calls + 1 => s.next.2.advance calls

end TokenStream

end Quill
