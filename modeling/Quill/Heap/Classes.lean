import Quill.Heap
import Quill.Resolution

set_option autoImplicit false

namespace Quill.Heap

/-- A class's own method of a name, or else that of the nearest class it inherits from. Superclasses
are older than their subclasses, so the search ends. -/
def findMethod? (h : Heap) (c : ClassId) (name : String) : Option FunctionId :=
  match h.classes[c]? with
  | none => none
  | some cls =>
    match cls.methods.find? name with
    | some method => some method
    | none =>
      match cls.superclass with
      | none => none
      | some p => if p < c then h.findMethod? p name else none
termination_by c

def closureArity (h : Heap) (id : FunctionId) : Nat :=
  match h.closures[id]? with
  | some closure => closure.code.arity
  | none => 0

def classArity (h : Heap) (c : ClassId) : Nat :=
  match h.findMethod? c initializerName with
  | some id => h.closureArity id
  | none => 0

def arity (h : Heap) : Callable → Nat
  | .function id => h.closureArity id
  | .native id =>
    match h.natives[id]? with
    | some native => native.arity
    | none => 0
  | .classRef id => h.classArity id

def callableName (h : Heap) : Callable → String
  | .function id => (h.closureName id).getD ""
  | .native id => h.nativeName id
  | .classRef id => h.className id

def field? (h : Heap) (i : InstanceId) (name : String) : Option Value := do
  let object ← h.instances[i]?
  object.fields.find? name

def setField (h : Heap) (i : InstanceId) (name : String) (value : Value) : Heap :=
  { h with instances := h.instances.modify i fun object =>
      { object with fields := object.fields.insert name value } }

end Quill.Heap
