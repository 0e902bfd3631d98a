import Quill.Grammar.Expression

set_option autoImplicit false

namespace Quill.Grammar

open Quill.Parser

def expressionStatement (g : Grammar) : Parser Stmt := do
  let e ← g.assignment
  let _ ← expectAt .semicolon .afterExpression
  pure (.expression e)

def printStatement (g : Grammar) : Parser Stmt := do
  let e ← g.assignment
  let _ ← expectAt .semicolon .afterValue
  pure (.print e)

def varDeclaration (g : Grammar) : Parser Stmt := do
  let name ← expectName .variable
  let initializer ← match ← accept? .equal with
    | some _ => some <$> g.assignment
    | none => pure none
  let _ ← expectAt .semicolon .afterVariable
  pure (.var name initializer)

def optionalBefore (g : Grammar) (s : Symbol) : Parser (Option Expr) := do
  if ← check s then pure none else some <$> g.assignment

/-- A `for` loop is a `while` loop: the increment ends each round, in a block with the body, and the
initializer stands before the loop in a block around both. An absent condition is true. -/
def desugarFor (initializer : Option Stmt) (condition increment : Option Expr) (body : Stmt) :
    Stmt :=
  let round := match increment with
    | some e => .block [body, .expression e]
    | none => body
  let loop := .loop (condition.getD (.literal (.boolean true))) round
  match initializer with
  | some s => .block [s, loop]
  | none => loop

def forInitializer (g : Grammar) : Parser (Option Stmt) := do
  match ← peek? with
  | some .semicolon => skip; pure none
  | some .varKw => skip; some <$> varDeclaration g
  | _ => some <$> expressionStatement g

def forStatement (g : Grammar) : Parser Stmt := do
  let _ ← expectAt .leftParen (.afterKeyword .forKw)
  let initializer ← forInitializer g
  let condition ← optionalBefore g .semicolon
  let _ ← expectAt .semicolon .afterLoopCondition
  let increment ← optionalBefore g .rightParen
  let _ ← expectAt .rightParen .afterForClauses
  let body ← g.statement
  pure (desugarFor initializer condition increment body)

def conditionAfter (g : Grammar) (keyword : Symbol) : Parser Expr := do
  let _ ← expectAt .leftParen (.afterKeyword keyword)
  let condition ← g.assignment
  let _ ← expectAt .rightParen .afterCondition
  pure condition

def ifStatement (g : Grammar) : Parser Stmt := do
  let condition ← conditionAfter g .ifKw
  let thenBranch ← g.statement
  match ← accept? .elseKw with
  | some _ => pure (.conditional condition thenBranch (some (← g.statement)))
  | none => pure (.conditional condition thenBranch none)

def whileStatement (g : Grammar) : Parser Stmt := do
  let condition ← conditionAfter g .whileKw
  pure (.loop condition (← g.statement))

def breakStatement (keyword : Token) : Parser Stmt := do
  let _ ← expectAt .semicolon (.afterKeyword .breakKw)
  pure (.breakLoop keyword)

def returnStatement (g : Grammar) (keyword : Token) : Parser Stmt := do
  let value ← optionalBefore g .semicolon
  let _ ← expectAt .semicolon .afterReturnValue
  pure (.returnFrom keyword value)

def statementRule (g : Grammar) : Parser Stmt := do
  let t := (← get).here
  match ← peek? with
  | some .forKw => skip; forStatement g
  | some .ifKw => skip; ifStatement g
  | some .whileKw => skip; whileStatement g
  | some .breakKw => skip; breakStatement t
  | some .returnKw => skip; returnStatement g t
  | some .leftBrace => skip; .block <$> g.block
  | some .printKw => skip; printStatement g
  | _ => expressionStatement g

def namedFunction (g : Grammar) (routine : Routine) : Parser Function := do
  let name ← expectName (.routine routine)
  let _ ← expectAt .leftParen (.afterName routine)
  functionRest g (some name) routine

def methods (g : Grammar) : Nat → List Function → Parser (List Function)
  | 0, found => pure found.reverse
  | n + 1, found => do
    if ← atBlockEnd then pure found.reverse
    else methods g n ((← namedFunction g .method) :: found)

def superclassClause : Parser (Option Expr) := do
  match ← accept? .less with
  | some _ =>
    let name ← expectName .superclass
    pure (some (.variable (← freshId) name))
  | none => pure none

def classDeclaration (g : Grammar) : Parser Stmt := do
  let name ← expectName .className
  let superclass ← superclassClause
  let _ ← expectAt .leftBrace .beforeClassBody
  let found ← methods g g.rounds []
  let _ ← expectAt .rightBrace .afterClassBody
  pure (.classDecl name superclass found)

/-- A `fun` right before a name declares a function; any other begins an expression. -/
def startsFunction : List Token → Bool
  | t :: name :: _ => t.is .funKw && name.is .identifier
  | _ => false

def declarationBody (g : Grammar) : Parser Stmt := do
  if startsFunction (← get).ahead then
    skip
    .function <$> namedFunction g .function
  else
    match ← peek? with
    | some .classKw => skip; classDeclaration g
    | some .varKw => skip; varDeclaration g
    | _ => statementRule g

/-- A declaration with a syntax error is reported and left out, and reading goes on behind it. -/
def declarationRule (g : Grammar) : Parser (Option Stmt) := fun c =>
  match declarationBody g c with
  | .ok s c => .ok (some s) c
  | .error e c => .ok none (c.report e).synchronize

def empty : Grammar where
  size := 0
  expression := fail .expectedExpression
  statement := fail .expectedExpression
  declaration c := .ok none (c.report (.syntactic .expectedExpression c.here))

def upTo : Nat → Grammar
  | 0 => empty
  | n + 1 =>
    { size := n + 1
      expression := fun c => (upTo n).assignment c
      statement := fun c => (upTo n).statementRule c
      declaration := fun c => (upTo n).declarationRule c }

end Quill.Grammar
