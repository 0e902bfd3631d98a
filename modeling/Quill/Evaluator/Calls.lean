import Quill.Machine

set_option autoImplicit false

namespace Quill

/-- The ways of running that lead back to each other, all of them cut off at some depth, and the
number of rounds after which a loop is cut off. -/
structure Evaluator where
  rounds : Nat
  eval : Expr → Run Value
  exec : Stmt → Run Flow
  invoke : Callable → List Value → Nat → Run Value
  act : Deed → Nat → Run Value

namespace Evaluator

open Run

def sequence (ev : Evaluator) : List Stmt → Run Flow
  | [] => pure .normal
  | s :: rest => do
    match ← ev.exec s with
    | .normal => ev.sequence rest
    | flow => pure flow

/-- A method whose `this` is an instance: a function of its own, in a scope of its own. -/
def bindMethod (method : FunctionId) (i : InstanceId) : Run FunctionId := do
  let closure ← object (·.closures[method]?)
  let scope ← newScope (Bindings.empty.insert "this" (.instanceRef i)) closure.scope
  newClosure { closure with scope := scope }

/-- Parameters take the arguments in order; what either side has too much of is left out. -/
def bindParams : List Token → List Value → Bindings Value → Except Error (Bindings Value)
  | param :: params, value :: values, vars =>
    if vars.contains param.lexeme then .error (.runtime (.redefined param.lexeme) param.line)
    else bindParams params values (vars.insert param.lexeme value)
  | _, _, vars => .ok vars

/-- An initializer gives its instance in any case. -/
def giveResult (closure : Closure) (line : Nat) (value : Value) : Run Value :=
  if closure.isInitializer then ask (·.heap.getAt closure.scope 0 "this" line) else pure value

def resultOf (closure : Closure) (line : Nat) : Flow → Run Value
  | .normal => giveResult closure line .nil
  | .returned value => giveResult closure line value
  | .broke => failInternally (.breakEscapedBody closure.code.label)

def callClosure (ev : Evaluator) (id : FunctionId) (arguments : List Value) (line : Nat) :
    Run Value := do
  let closure ← object (·.closures[id]?)
  let vars ← ask fun _ => bindParams closure.code.params arguments {}
  let scope ← newScope vars closure.scope
  let flow ← inScope scope (ev.sequence closure.code.body)
  resultOf closure line flow

def construct (ev : Evaluator) (c : ClassId) (arguments : List Value) (line : Nat) :
    Run Value := do
  let i ← newInstance c
  match ← ask fun m => .ok (m.heap.findMethod? c initializerName) with
  | some method =>
    let bound ← bindMethod method i
    let _ ← ev.callClosure bound arguments line
    pure (.instanceRef i)
  | none => pure (.instanceRef i)

def callNative (ev : Evaluator) (id : NativeId) (arguments : List Value) (line : Nat) :
    Run Value := do
  let native ← object (·.natives[id]?)
  match native.respond arguments line with
  | .value v => pure v
  | .error e => fail e
  | .invoke callee arguments => ev.invoke callee arguments line
  | .now => readClock
  | .act deed => ev.act deed line

def actRule (ev : Evaluator) (line : Nat) : Deed → Run Value
  | .done result => ask fun _ => result
  | .change f next => do
    let view ← change f
    ev.actRule line (next view)
  | .add name arity respond next => do
    let id ← newNative ⟨name, arity, fun arguments line => .act (respond arguments line)⟩
    ev.actRule line (next id)
  | .call callee arguments next => do
    let result ← attempt (ev.invoke callee arguments line)
    ev.actRule line (next result)
  | .execute s next => do
    let result ← attempt (ev.exec s)
    ev.actRule line (next result)
  | .evaluate e next => do
    let result ← attempt (ev.eval e)
    ev.actRule line (next result)

def invokeRule (ev : Evaluator) (callee : Callable) (arguments : List Value) (line : Nat) :
    Run Value :=
  match callee with
  | .function id => ev.callClosure id arguments line
  | .native id => ev.callNative id arguments line
  | .classRef id => ev.construct id arguments line

end Evaluator

end Quill
