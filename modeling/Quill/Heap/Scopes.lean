import Quill.Heap

set_option autoImplicit false

namespace Quill

structure Slot where
  scope : ScopeId
  value : Value

namespace Heap

def slotIn? (h : Heap) (s : ScopeId) (name : String) : Option Slot := do
  let scope ← h.scopes[s]?
  let value ← scope.vars.find? name
  return ⟨s, value⟩

def parent? (h : Heap) (s : ScopeId) : Option ScopeId := do
  let scope ← h.scopes[s]?
  scope.parent

/-- The nearest binding of a name. Parents are older than their children, so the walk ends. -/
def nearest? (h : Heap) (s : ScopeId) (name : String) : Option Slot :=
  match h.slotIn? s name with
  | some slot => some slot
  | none =>
    match h.parent? s with
    | none => none
    | some p => if p < s then h.nearest? p name else none
termination_by s

def ancestor? (h : Heap) (s : ScopeId) : Nat → Option ScopeId
  | 0 => some s
  | d + 1 =>
    match h.parent? s with
    | none => none
    | some p => h.ancestor? p d

def slot (h : Heap) (s : ScopeId) (name : String) (line : Nat) : Except Error Slot :=
  match h.nearest? s name with
  | some slot => .ok slot
  | none => .error (.runtime (.undefinedVariable name) line)

/-- Finds a name by jumping; it is never the program's fault if there is none. -/
def slotAt (h : Heap) (s : ScopeId) (distance : Nat) (name : String) (line : Nat) :
    Except Error Slot :=
  match h.ancestor? s distance with
  | none => .error (.internal (.noScope distance name line))
  | some target =>
    match h.slotIn? target name with
    | some slot => .ok slot
    | none => .error (.internal (.notBound name distance line))

def definable (h : Heap) (s : ScopeId) (name : String) (line : Nat) : Except Error Unit :=
  match h.slotIn? s name with
  | some _ => .error (.runtime (.redefined name) line)
  | none => .ok ()

def write (h : Heap) (s : ScopeId) (name : String) (value : Value) : Heap :=
  { h with scopes := h.scopes.modify s fun scope =>
      { scope with vars := scope.vars.insert name value } }

def get (h : Heap) (s : ScopeId) (name : String) (line : Nat) : Except Error Value :=
  (h.slot s name line).map Slot.value

def getAt (h : Heap) (s : ScopeId) (distance : Nat) (name : String) (line : Nat) :
    Except Error Value :=
  (h.slotAt s distance name line).map Slot.value

def define (h : Heap) (s : ScopeId) (name : String) (value : Value) (line : Nat) :
    Except Error Heap :=
  (h.definable s name line).map fun _ => h.write s name value

def assign (h : Heap) (s : ScopeId) (name : String) (value : Value) (line : Nat) :
    Except Error Heap :=
  (h.slot s name line).map fun slot => h.write slot.scope name value

def assignAt (h : Heap) (s : ScopeId) (distance : Nat) (name : String) (value : Value)
    (line : Nat) : Except Error Heap :=
  (h.slotAt s distance name line).map fun slot => h.write slot.scope name value

def addRoot (h : Heap) (natives : List Native) : Heap :=
  let entries := natives.mapIdx fun i native => (native.name, Value.native (h.natives.size + i))
  let vars := entries.foldl (fun vars (name, value) => vars.insert name value) Bindings.empty
  (natives.foldl addNative h).addScope ⟨vars, none⟩

end Heap

end Quill
