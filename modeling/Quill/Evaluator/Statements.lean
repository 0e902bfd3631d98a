import Quill.Evaluator.Expressions

set_option autoImplicit false

namespace Quill.Evaluator

open Run

def evalOptional (ev : Evaluator) : Option Expr → Run Value
  | none => pure .nil
  | some e => ev.eval e

def execVar (ev : Evaluator) (name : Token) (initializer : Option Expr) : Run Flow := do
  let v ← ev.evalOptional initializer
  define name v
  pure .normal

def execBlock (ev : Evaluator) (body : List Stmt) : Run Flow := do
  let scope ← newScope {} (← currentScope)
  inScope scope (ev.sequence body)

def execConditional (ev : Evaluator) (condition : Expr) (thenBranch : Stmt)
    (elseBranch : Option Stmt) : Run Flow := do
  if (← ev.eval condition).isTruthy then ev.exec thenBranch
  else
    match elseBranch with
    | some s => ev.exec s
    | none => pure .normal

/-- Rounds of a loop, at most as many as given. -/
def execLoop (ev : Evaluator) (condition : Expr) (body : Stmt) : Nat → Run Flow
  | 0 => outOfFuel
  | n + 1 => do
    if (← ev.eval condition).isTruthy then
      match ← ev.exec body with
      | .normal => ev.execLoop condition body n
      | .broke => pure .normal
      | .returned v => pure (.returned v)
    else pure .normal

def execFunction (f : Function) : Run Flow := do
  match f.name with
  | none => failInternally .namelessFunction
  | some name =>
    let scope ← currentScope
    let id ← newClosure ⟨f, scope, false⟩
    define name (.function id)
    pure .normal

def superclassLine (name : Token) : Expr → Nat
  | .variable _ superName => superName.line
  | _ => name.line

def evalSuperclass (ev : Evaluator) (name : Token) : Option Expr → Run (Option ClassId)
  | none => pure none
  | some e => do
    match ← ev.eval e with
    | .classRef c => pure (some c)
    | _ => failAt (superclassLine name e) .superclassNotClass

/-- Methods close over a scope that holds `super`, if there is a superclass. -/
def methodScope : Option ClassId → Run ScopeId
  | none => currentScope
  | some c => do newScope (Bindings.empty.insert "super" (.classRef c)) (← currentScope)

def methodTable (scope : ScopeId) :
    List Function → Bindings FunctionId → Run (Bindings FunctionId)
  | [], table => pure table
  | f :: rest, table => do
    let id ← newClosure ⟨f, scope, f.label == initializerName⟩
    methodTable scope rest (table.insert f.label id)

/-- The name is bound to `nil` while the class is being made. -/
def execClass (ev : Evaluator) (name : Token) (superclass : Option Expr)
    (methods : List Function) : Run Flow := do
  define name .nil
  let parent ← ev.evalSuperclass name superclass
  let scope ← methodScope parent
  let table ← methodTable scope methods {}
  let c ← newClass ⟨name.lexeme, parent, table⟩
  assignNearest name (.classRef c)
  pure .normal

def execRule (ev : Evaluator) : Stmt → Run Flow
  | .expression e => do let _ ← ev.eval e; pure .normal
  | .print e => do print (← ev.eval e); pure .normal
  | .var name initializer => ev.execVar name initializer
  | .block body => ev.execBlock body
  | .conditional condition thenBranch elseBranch =>
    ev.execConditional condition thenBranch elseBranch
  | .loop condition body => ev.execLoop condition body ev.rounds
  | .breakLoop _ => pure .broke
  | .returnFrom _ value => .returned <$> ev.evalOptional value
  | .function f => execFunction f
  | .classDecl name superclass methods => ev.execClass name superclass methods

end Quill.Evaluator
