import Quill.Evaluator.Calls
import Quill.Evaluator.Operators

set_option autoImplicit false

namespace Quill.Evaluator

open Run

/-- Evaluates expressions from left to right, onto the values found before, the latest first. -/
def evalAll (ev : Evaluator) : List Expr → List Value → Run (List Value)
  | [], found => pure found.reverse
  | e :: rest, found => do
    let v ← ev.eval e
    ev.evalAll rest (v :: found)

def evalUnary (ev : Evaluator) (operator : Token) (operand : Expr) : Run Value := do
  let v ← ev.eval operand
  ask fun _ => Operator.unary operator v

def evalBinary (ev : Evaluator) (left : Expr) (operator : Token) (right : Expr) : Run Value := do
  let a ← ev.eval left
  let b ← ev.eval right
  ask fun m => Operator.binary m.heap operator a b

def evalLogical (ev : Evaluator) (left : Expr) (operator : Token) (right : Expr) : Run Value := do
  let a ← ev.eval left
  if a.isTruthy == operator.is .orKw then pure a else ev.eval right

def evalAssign (ev : Evaluator) (id : RefId) (name : Token) (e : Expr) : Run Value := do
  let v ← ev.eval e
  writeRef id name v
  pure v

def evalCall (ev : Evaluator) (callee : Expr) (paren : Token) (arguments : List Expr) :
    Run Value := do
  let f ← ev.eval callee
  let values ← ev.evalAll arguments []
  match f.callable? with
  | none => failAt paren.line .notCallable
  | some callable =>
    let arity ← ask fun m => .ok (m.heap.arity callable)
    if values.length = arity then
      oneDeeper paren.line (ev.invokeRule callable values paren.line)
    else failAt paren.line (.wrongArity arity values.length)

/-- A field of an instance, or else a method of its class, bound to it. -/
def property (i : InstanceId) (name : Token) : Run Value := do
  let object ← object (·.instances[i]?)
  match object.fields.find? name.lexeme with
  | some v => pure v
  | none =>
    match ← ask fun m => .ok (m.heap.findMethod? object.classId name.lexeme) with
    | some method => .function <$> bindMethod method i
    | none => failAt name.line (.undefinedProperty name.lexeme)

def evalGet (ev : Evaluator) (object : Expr) (name : Token) : Run Value := do
  match ← ev.eval object with
  | .instanceRef i => property i name
  | _ => failAt name.line .propertyOfNonInstance

def evalSet (ev : Evaluator) (object : Expr) (name : Token) (e : Expr) : Run Value := do
  match ← ev.eval object with
  | .instanceRef i =>
    let v ← ev.eval e
    setField i name v
    pure v
  | _ => failAt name.line .fieldOfNonInstance

/-- The class `super` denotes and the instance `this` denotes one scope further in. -/
def superBindings (id : RefId) (keyword : Token) (m : Machine) :
    Except Error (ClassId × InstanceId) := do
  match m.distances[id]? with
  | none => .error (.internal .superUnresolved)
  | some 0 => .error (.internal .superAtDistanceZero)
  | some (d + 1) =>
    match ← m.heap.getAt m.scope (d + 1) "super" keyword.line with
    | .classRef c =>
      match ← m.heap.getAt m.scope d "this" keyword.line with
      | .instanceRef i => .ok (c, i)
      | _ => .error (.internal .thisNotInstance)
    | _ => .error (.internal .superNotClass)

def evalSuper (id : RefId) (keyword method : Token) : Run Value := do
  let (c, i) ← ask (superBindings id keyword)
  match ← ask fun m => .ok (m.heap.findMethod? c method.lexeme) with
  | some found => .function <$> bindMethod found i
  | none => failAt method.line (.undefinedProperty method.lexeme)

def evalFunction (f : Function) : Run Value := do
  let scope ← currentScope
  .function <$> newClosure ⟨f, scope, false⟩

def evalRule (ev : Evaluator) : Expr → Run Value
  | .literal literal => pure literal.value
  | .grouping inner => ev.eval inner
  | .unary operator operand => ev.evalUnary operator operand
  | .binary left operator right => ev.evalBinary left operator right
  | .logical left operator right => ev.evalLogical left operator right
  | .variable id name => readRef id name
  | .assign id name e => ev.evalAssign id name e
  | .call callee paren arguments => ev.evalCall callee paren arguments
  | .get object name => ev.evalGet object name
  | .set object name e => ev.evalSet object name e
  | .this id keyword => readRef id keyword
  | .super id keyword method => evalSuper id keyword method
  | .function f => evalFunction f

end Quill.Evaluator
