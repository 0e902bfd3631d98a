import Quill.Native

set_option autoImplicit false

namespace Quill

/-- Every object ever created. Objects are only added, never removed. -/
structure Heap where
  scopes : Array Scope
  closures : Array Closure
  natives : Array Native
  classes : Array Class
  instances : Array Instance

namespace Heap

def empty : Heap :=
  ⟨#[], #[], #[], #[], #[]⟩

def addScope (h : Heap) (scope : Scope) : Heap :=
  { h with scopes := h.scopes.push scope }

def addClosure (h : Heap) (closure : Closure) : Heap :=
  { h with closures := h.closures.push closure }

def addNative (h : Heap) (native : Native) : Heap :=
  { h with natives := h.natives.push native }

def addClass (h : Heap) (c : Class) : Heap :=
  { h with classes := h.classes.push c }

def addInstance (h : Heap) (i : Instance) : Heap :=
  { h with instances := h.instances.push i }

def closureName (h : Heap) (id : FunctionId) : Option String := do
  let closure ← h.closures[id]?
  let name ← closure.code.name
  return name.lexeme

def className (h : Heap) (id : ClassId) : String :=
  match h.classes[id]? with
  | some c => c.name
  | none => ""

def nativeName (h : Heap) (id : NativeId) : String :=
  match h.natives[id]? with
  | some native => native.name
  | none => ""

def instanceClassName (h : Heap) (id : InstanceId) : String :=
  match h.instances[id]? with
  | some i => h.className i.classId
  | none => ""

def display (h : Heap) : Value → String
  | .nil => "nil"
  | .boolean true => "true"
  | .boolean false => "false"
  | .number x => Value.numberText (.ofFloat x)
  | .string s => s
  | .function id =>
    match h.closureName id with
    | some name => s!"<fn {name}>"
    | none => "<fn>"
  | .native id => s!"<native fn {h.nativeName id}>"
  | .classRef id => h.className id
  | .instanceRef id => s!"{h.instanceClassName id} instance"

end Heap

end Quill
