import Quill.Lexeme

set_option autoImplicit false

namespace Quill

def Lexeme.newlines (l : Lexeme) : Nat :=
  l.bytes.countP isNewline

def itemsFrom : Nat → List Lexeme → List (Except Error Token)
  | line, [] => [.ok ⟨.symbol .eof, "", line⟩]
  | line, l :: rest =>
    let line := line + l.newlines
    match l.content with
    | .token kind => .ok ⟨kind, Utf8.decodeLossy l.bytes, line⟩ :: itemsFrom line rest
    | .fault fault => .error (.lexical fault line) :: itemsFrom line rest
    | .blank | .comment => itemsFrom line rest

/-- Everything a source holds, in order; a fault does not stop the scan. -/
def scan (source : List UInt8) : List (Except Error Token) :=
  itemsFrom 1 (Lexeme.split source)

def tokensOf : List (Except Error Token) → List Token
  | [] => []
  | .ok token :: rest => token :: tokensOf rest
  | .error _ :: rest => tokensOf rest

def errorsOf : List (Except Error Token) → List Error
  | [] => []
  | .ok _ :: rest => errorsOf rest
  | .error e :: rest => e :: errorsOf rest

def scanTokens (source : List UInt8) : Except (List Error) (List Token) :=
  let items := scan source
  match errorsOf items with
  | [] => .ok (tokensOf items)
  | errors => .error errors

end Quill
