import Quill.Grammar.Cursor

set_option autoImplicit false

namespace Quill.Grammar

open Quill.Parser

def maxItems : Nat := 255

def items {α : Type} (tooMany : SyntaxFault) (item : Parser α) : Nat → List α → Parser (List α)
  | 0, found => pure found.reverse
  | n + 1, found => do
    if maxItems ≤ found.length then reportHere tooMany
    let x ← item
    match ← accept? .comma with
    | some _ => items tooMany item n (x :: found)
    | none => pure (x :: found).reverse

def itemsBeforeParen {α : Type} (g : Grammar) (tooMany : SyntaxFault) (item : Parser α) :
    Parser (List α) := do
  if ← check .rightParen then pure [] else items tooMany item g.rounds []

def declarationsUntil (stop : Parser Bool) (declaration : Parser (Option Stmt)) :
    Nat → List Stmt → Parser (List Stmt)
  | 0, found => pure found.reverse
  | n + 1, found => do
    if ← stop then pure found.reverse
    else
      match ← declaration with
      | some s => declarationsUntil stop declaration n (s :: found)
      | none => declarationsUntil stop declaration n found

def atBlockEnd : Parser Bool := do
  if ← check .rightBrace then pure true else atEnd

def block (g : Grammar) : Parser (List Stmt) := do
  let body ← declarationsUntil atBlockEnd g.declaration g.rounds []
  let _ ← expectAt .rightBrace .afterBlock
  pure body

def functionRest (g : Grammar) (name : Option Token) (routine : Routine) : Parser Function := do
  let params ← g.itemsBeforeParen .tooManyParameters (expectName .parameter)
  let _ ← expectAt .rightParen .afterParameters
  let _ ← expectAt .leftBrace (.beforeBody routine)
  let body ← g.block
  pure ⟨name, params, body⟩

def superAccess (keyword : Token) : Parser Expr := do
  let _ ← expectAt .dot (.afterKeyword .superKw)
  let method ← expectName .superMethod
  pure (.super (← freshId) keyword method)

def anonymousFunction (g : Grammar) : Parser Expr := do
  let _ ← expectAt .leftParen (.afterKeyword .funKw)
  pure (.function (← functionRest g none .anonymous))

def groupingRest (g : Grammar) : Parser Expr := do
  let inner ← g.expression
  let _ ← expectAt .rightParen .afterExpression
  pure (.grouping inner)

def primaryFrom (g : Grammar) (t : Token) : Parser Expr :=
  match t.kind with
  | .number value => skip *> pure (.literal (.number value))
  | .string value => skip *> pure (.literal (.string value))
  | .symbol .falseKw => skip *> pure (.literal (.boolean false))
  | .symbol .trueKw => skip *> pure (.literal (.boolean true))
  | .symbol .nilKw => skip *> pure (.literal .nil)
  | .symbol .thisKw => skip *> (.this · t) <$> freshId
  | .symbol .identifier => skip *> (.variable · t) <$> freshId
  | .symbol .superKw => skip *> superAccess t
  | .symbol .funKw => skip *> anonymousFunction g
  | .symbol .leftParen => skip *> groupingRest g
  | _ => fail .expectedExpression

def primary (g : Grammar) : Parser Expr := do
  match (← get).ahead with
  | [] => fail .expectedExpression
  | t :: _ => primaryFrom g t

def callRest (g : Grammar) (callee : Expr) : Parser Expr := do
  let arguments ← g.itemsBeforeParen .tooManyArguments g.expression
  let paren ← expectAt .rightParen .afterArguments
  pure (.call callee paren arguments)

def suffixes (g : Grammar) : Nat → Expr → Parser Expr
  | 0, e => pure e
  | n + 1, e => do
    match ← peek? with
    | some .leftParen => skip; suffixes g n (← callRest g e)
    | some .dot => skip; suffixes g n (.get e (← expectName .property))
    | _ => pure e

def call (g : Grammar) : Parser Expr := do
  let e ← primary g
  suffixes g g.rounds e

def unary (g : Grammar) : Nat → Parser Expr
  | 0 => call g
  | n + 1 => do
    match ← acceptAny? [.bang, .minus] with
    | some operator => pure (.unary operator (← unary g n))
    | none => call g

/-- Infix operators that bind equally strongly, and the node they build. -/
structure Level where
  operators : List Symbol
  node : Expr → Token → Expr → Expr

def levels : List Level :=
  [⟨[.orKw], .logical⟩,
    ⟨[.andKw], .logical⟩,
    ⟨[.bangEqual, .equalEqual], .binary⟩,
    ⟨[.greater, .greaterEqual, .less, .lessEqual], .binary⟩,
    ⟨[.minus, .plus], .binary⟩,
    ⟨[.star, .slash], .binary⟩]

def Level.rest (level : Level) (operand : Parser Expr) : Nat → Expr → Parser Expr
  | 0, left => pure left
  | n + 1, left => do
    match ← acceptAny? level.operators with
    | some operator => level.rest operand n (level.node left operator (← operand))
    | none => pure left

def Level.chain (g : Grammar) (level : Level) (operand : Parser Expr) : Parser Expr := do
  let left ← operand
  level.rest operand g.rounds left

def operators (g : Grammar) : Parser Expr :=
  levels.foldr (Level.chain g) (unary g g.rounds)

/-- Whether the left side may be assigned to is decided once the whole assignment is read. -/
def assignTo (target : Expr) (equals : Token) (value : Expr) : Parser Expr :=
  match target with
  | .variable _ name => (.assign · name value) <$> freshId
  | .get object name => pure (.set object name value)
  | _ => do
    reportAt equals .invalidTarget
    pure target

def assignment (g : Grammar) : Parser Expr := do
  let target ← g.operators
  match ← accept? .equal with
  | some equals => assignTo target equals (← g.expression)
  | none => pure target

end Quill.Grammar
