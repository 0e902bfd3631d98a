import Quill.Error
import Quill.Tree

set_option autoImplicit false

namespace Quill

/-- The tokens not yet read, the token that ends them, the errors reported, the latest first, and
the next unused reference identity. -/
structure Cursor where
  ahead : List Token
  last : Token
  reported : List Error
  nextId : RefId

abbrev Parser := EStateM Error Cursor

namespace Cursor

def start (nextId : RefId) (tokens : List Token) : Cursor where
  ahead := tokens.takeWhile fun t => !t.is .eof
  last := (tokens.find? fun t => t.is .eof).getD ⟨.symbol .eof, "", 1⟩
  reported := []
  nextId := nextId

def here (c : Cursor) : Token :=
  c.ahead.headD c.last

def report (c : Cursor) (e : Error) : Cursor :=
  { c with reported := e :: c.reported }

def startsStatement (t : Token) : Bool :=
  [.classKw, .funKw, .varKw, .forKw, .ifKw, .whileKw, .printKw, .breakKw, .returnKw].any t.is

/-- Skips to right after a semicolon or right before the beginning of a statement. -/
def resume : Token → List Token → List Token
  | _, [] => []
  | skipped, t :: rest =>
    if skipped.is .semicolon || startsStatement t then t :: rest else resume t rest

def synchronize (c : Cursor) : Cursor :=
  match c.ahead with
  | [] => c
  | t :: rest => { c with ahead := resume t rest }

end Cursor

namespace Parser

def after {α : Type} (p : Parser α) (c : Cursor) : Cursor :=
  match p c with
  | .ok _ c' => c'
  | .error _ c' => c'

def remaining : Parser Nat := fun c =>
  .ok c.ahead.length c

def atEnd : Parser Bool := fun c =>
  .ok c.ahead.isEmpty c

def peek? : Parser (Option Symbol) := fun c =>
  match c.ahead with
  | ⟨.symbol s, _, _⟩ :: _ => .ok (some s) c
  | _ => .ok none c

def check (s : Symbol) : Parser Bool := fun c =>
  match c.ahead with
  | t :: _ => .ok (t.is s) c
  | [] => .ok false c

def skip : Parser Unit := fun c =>
  .ok () { c with ahead := c.ahead.tail }

def acceptAny? (symbols : List Symbol) : Parser (Option Token) := fun c =>
  match c.ahead with
  | [] => .ok none c
  | t :: rest =>
    if symbols.any t.is then .ok (some t) { c with ahead := rest } else .ok none c

def accept? (s : Symbol) : Parser (Option Token) :=
  acceptAny? [s]

def reportAt (t : Token) (fault : SyntaxFault) : Parser Unit := fun c =>
  .ok () (c.report (.syntactic fault t))

def reportHere (fault : SyntaxFault) : Parser Unit := fun c =>
  .ok () (c.report (.syntactic fault c.here))

def fail {α : Type} (fault : SyntaxFault) : Parser α := fun c =>
  .error (.syntactic fault c.here) c

def expect (s : Symbol) (fault : SyntaxFault) : Parser Token := do
  match ← accept? s with
  | some t => pure t
  | none => fail fault

def expectName (role : NameRole) : Parser Token :=
  expect .identifier (.missingName role)

def expectAt (s : Symbol) (place : Place) : Parser Token :=
  expect s (.missing s place)

def freshId : Parser RefId := fun c =>
  .ok c.nextId { c with nextId := c.nextId + 1 }

section Bind

variable {α β : Type} {p : Parser α} {c c' : Cursor}

theorem bind_eq_match (p : Parser α) (f : α → Parser β) (c : Cursor) :
    (p >>= f) c =
      match p c with
      | .ok x c' => f x c'
      | .error e c' => .error e c' := by
  change EStateM.bind p f c = _
  unfold EStateM.bind
  cases p c <;> rfl

theorem bind_ok {x : α} (run : p c = .ok x c') (f : α → Parser β) : (p >>= f) c = f x c' := by
  rw [bind_eq_match, run]

theorem bind_error {e : Error} (run : p c = .error e c') (f : α → Parser β) :
    (p >>= f) c = .error e c' := by
  rw [bind_eq_match, run]

end Bind

end Parser

/-- The rules that other rules lead back to, for inputs of at most a given number of tokens. -/
structure Grammar where
  size : Nat
  expression : Parser Expr
  statement : Parser Stmt
  declaration : Parser (Option Stmt)

/-- A loop of a rule reads a token in every round, and a rule reads at most one token more than the
grammar it leads back to; so this many rounds are more than enough. -/
def Grammar.rounds (g : Grammar) : Nat :=
  g.size + 2

end Quill
