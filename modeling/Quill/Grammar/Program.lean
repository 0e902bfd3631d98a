import Quill.Grammar.Statement

set_option autoImplicit false

namespace Quill

open Quill.Parser

def programRule : Parser (List Stmt) := do
  let n ← remaining
  Grammar.declarationsUntil atEnd (Grammar.upTo n).declaration n []

def loneExpressionRule : Parser Expr := do
  let e ← (Grammar.upTo (← remaining)).expression
  if ← atEnd then pure e else fail .expectedEnd

/-- The outcome of a rule on all tokens: its result and the next unused identity, or every error in
the order of its report. -/
def parseWith {α : Type} (rule : Parser α) (nextId : RefId) (tokens : List Token) :
    Except (List Error) (α × RefId) :=
  match rule (Cursor.start nextId tokens) with
  | .ok x c => if c.reported.isEmpty then .ok (x, c.nextId) else .error c.reported.reverse
  | .error e c => .error (c.report e).reported.reverse

def parseProgram (nextId : RefId) (tokens : List Token) :
    Except (List Error) (List Stmt × RefId) :=
  parseWith programRule nextId tokens

def parseExpression (nextId : RefId) (tokens : List Token) :
    Except (List Error) (Expr × RefId) :=
  parseWith loneExpressionRule nextId tokens

end Quill
