import Quill.Error

set_option autoImplicit false

namespace Quill

/-- Objects are referred to by their place among the objects of their sort, in the order of
creation. -/
abbrev ScopeId := Nat

abbrev FunctionId := Nat

abbrev NativeId := Nat

abbrev ClassId := Nat

abbrev InstanceId := Nat

inductive Value where
  | nil
  | boolean (b : Bool)
  | number (x : Float)
  | string (s : String)
  | function (id : FunctionId)
  | native (id : NativeId)
  | classRef (id : ClassId)
  | instanceRef (id : InstanceId)

namespace Value

def isTruthy : Value → Bool
  | nil => false
  | boolean b => b
  | _ => true

def typeName : Value → String
  | nil => "nil"
  | boolean _ => "boolean"
  | number _ => "number"
  | string _ => "string"
  | function _ | native _ => "function"
  | classRef _ => "class"
  | instanceRef _ => "instance"

/-- Numbers compare as numbers, so that a NaN differs from itself; objects are equal only to
themselves. -/
def equal : Value → Value → Bool
  | nil, nil => true
  | boolean a, boolean b => a == b
  | number a, number b => a == b
  | string a, string b => a == b
  | function a, function b => a == b
  | native a, native b => a == b
  | classRef a, classRef b => a == b
  | instanceRef a, instanceRef b => a == b
  | _, _ => false

def numberText (x : Double) : String :=
  match x with
  | .finite negative magnitude =>
    match magnitude.toNat? with
    | some n => signed negative (String.ofList (digitsOf n))
    | none => x.plain
  | _ => x.plain

end Value

inductive Callable where
  | function (id : FunctionId)
  | native (id : NativeId)
  | classRef (id : ClassId)
  deriving DecidableEq

def Value.callable? : Value → Option Callable
  | .function id => some (.function id)
  | .native id => some (.native id)
  | .classRef id => some (.classRef id)
  | _ => none

/-- How a statement finished. A `returned` ends the innermost call, a `broke` the innermost loop. -/
inductive Flow where
  | normal
  | returned (value : Value)
  | broke

end Quill
