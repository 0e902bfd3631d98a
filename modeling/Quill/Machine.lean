import Quill.Heap.Classes
import Quill.Heap.Scopes
import Quill.Machine.Sink

set_option autoImplicit false

namespace Quill

structure Machine where
  heap : Heap
  globals : ScopeId
  scope : ScopeId
  distances : Distances
  sink : Sink
  clock : Clock
  depth : Nat
  maxDepth : Nat
  memory : List Value

namespace Machine

def defaultMaxDepth : Nat := 256

def start (sink : Sink) (clock : Clock) : Machine where
  heap := Heap.empty.addRoot [.clock]
  globals := 0
  scope := 0
  distances := {}
  sink := sink
  clock := clock
  depth := 0
  maxDepth := defaultMaxDepth
  memory := []

def view (m : Machine) : View where
  scopes := m.heap.scopes
  closures := m.heap.closures
  classes := m.heap.classes
  instances := m.heap.instances
  globals := m.globals
  scope := m.scope
  distances := m.distances
  clock := m.clock
  depth := m.depth
  maxDepth := m.maxDepth
  memory := m.memory

def leftAs (m : Machine) (v : View) : Machine where
  heap := ⟨v.scopes, v.closures, m.heap.natives, v.classes, v.instances⟩
  globals := v.globals
  scope := v.scope
  distances := v.distances
  sink := m.sink
  clock := v.clock
  depth := v.depth
  maxDepth := v.maxDepth
  memory := v.memory

end Machine

/-- Why a run ends early: with an error, or because it was cut off. -/
inductive Halt where
  | error (e : Error)
  | outOfFuel

abbrev Run := EStateM Halt Machine

namespace Run

def fail {α : Type} (e : Error) : Run α := fun m =>
  .error (.error e) m

def failAt {α : Type} (line : Nat) (fault : RuntimeFault) : Run α :=
  fail (.runtime fault line)

def failInternally {α : Type} (fault : InternalFault) : Run α :=
  fail (.internal fault)

def outOfFuel {α : Type} : Run α := fun m =>
  .error .outOfFuel m

def ask {α : Type} (f : Machine → Except Error α) : Run α := fun m =>
  match f m with
  | .ok a => .ok a m
  | .error e => .error (.error e) m

def object {α : Type} (f : Heap → Option α) : Run α := fun m =>
  match f m.heap with
  | some a => .ok a m
  | none => .error (.error (.internal .dangling)) m

def currentScope : Run ScopeId := fun m =>
  .ok m.scope m

def newScope (vars : Bindings Value) (parent : ScopeId) : Run ScopeId := fun m =>
  .ok m.heap.scopes.size { m with heap := m.heap.addScope ⟨vars, some parent⟩ }

def newClosure (closure : Closure) : Run FunctionId := fun m =>
  .ok m.heap.closures.size { m with heap := m.heap.addClosure closure }

def newNative (native : Native) : Run NativeId := fun m =>
  .ok m.heap.natives.size { m with heap := m.heap.addNative native }

def newClass (c : Class) : Run ClassId := fun m =>
  .ok m.heap.classes.size { m with heap := m.heap.addClass c }

def newInstance (c : ClassId) : Run InstanceId := fun m =>
  .ok m.heap.instances.size { m with heap := m.heap.addInstance ⟨c, {}⟩ }

def define (name : Token) (value : Value) : Run Unit := fun m =>
  match m.heap.definable m.scope name.lexeme name.line with
  | .error e => .error (.error e) m
  | .ok () => .ok () { m with heap := m.heap.write m.scope name.lexeme value }

def assignNearest (name : Token) (value : Value) : Run Unit := fun m =>
  match m.heap.slot m.scope name.lexeme name.line with
  | .error e => .error (.error e) m
  | .ok slot => .ok () { m with heap := m.heap.write slot.scope name.lexeme value }

/-- The binding a reference denotes: at its recorded distance, or else a global one. -/
def slotOf (m : Machine) (id : RefId) (name : Token) : Except Error Slot :=
  match m.distances[id]? with
  | some d => m.heap.slotAt m.scope d name.lexeme name.line
  | none => m.heap.slot m.globals name.lexeme name.line

def readRef (id : RefId) (name : Token) : Run Value := fun m =>
  match slotOf m id name with
  | .error e => .error (.error e) m
  | .ok slot => .ok slot.value m

def writeRef (id : RefId) (name : Token) (value : Value) : Run Unit := fun m =>
  match slotOf m id name with
  | .error e => .error (.error e) m
  | .ok slot => .ok () { m with heap := m.heap.write slot.scope name.lexeme value }

def setField (i : InstanceId) (name : Token) (value : Value) : Run Unit := fun m =>
  .ok () { m with heap := m.heap.setField i name.lexeme value }

def inScope {α : Type} (s : ScopeId) (x : Run α) : Run α := fun m =>
  let outer := m.scope
  match x { m with scope := s } with
  | .ok a m => .ok a { m with scope := outer }
  | .error e m => .error e { m with scope := outer }

def oneDeeper {α : Type} (line : Nat) (x : Run α) : Run α := fun m =>
  let outer := m.depth
  if m.maxDepth ≤ outer then .error (.error (.runtime .stackOverflow line)) m
  else
    match x { m with depth := outer + 1 } with
    | .ok a m => .ok a { m with depth := outer }
    | .error e m => .error e { m with depth := outer }

/-- Prints a line; what does not fit the sink is lost. -/
def print (value : Value) : Run Unit := fun m =>
  let bytes := (m.heap.display value ++ "\n").toUTF8
  let fits := m.sink.accepts bytes.size == bytes.size
  let m := { m with sink := m.sink.write bytes }
  if fits then .ok () m else .error (.error (.io .sinkFull)) m

def readClock : Run Value := fun m =>
  .ok (.number m.clock.seconds) { m with clock.readings := m.clock.readings + 1 }

def change (f : View → View) : Run View := fun m =>
  .ok (f m.view) (m.leftAs (f m.view))

def attempt {α : Type} (x : Run α) : Run (Except Error α) := fun m =>
  match x m with
  | .ok a m => .ok (.ok a) m
  | .error (.error e) m => .ok (.error e) m
  | .error .outOfFuel m => .error .outOfFuel m

section Bind

variable {α β : Type} {x : Run α} {f : α → Run β} {m m' : Machine}

theorem bind_eq_match (x : Run α) (f : α → Run β) (m : Machine) :
    (x >>= f) m =
      match x m with
      | .ok a m' => f a m'
      | .error halt m' => .error halt m' := by
  change EStateM.bind x f m = _
  unfold EStateM.bind
  cases x m <;> rfl

theorem bind_of_ok {a : α} (result : x m = .ok a m') : (x >>= f) m = f a m' := by
  rw [bind_eq_match, result]

theorem bind_of_error {halt : Halt} (result : x m = .error halt m') :
    (x >>= f) m = .error halt m' := by
  rw [bind_eq_match, result]

theorem bind_congr {y : Run α} (same : x m = y m') : (x >>= f) m = (y >>= f) m' := by
  rw [bind_eq_match, bind_eq_match, same]

theorem object_bind (p : Heap → Option α) (f : α → Run β) (m : Machine) :
    (object p >>= f) m =
      match p m.heap with
      | some a => f a m
      | none => .error (.error (.internal .dangling)) m := by
  rw [bind_eq_match]
  unfold object
  cases p m.heap <;> rfl

theorem bind_cases {result : EStateM.Result Halt Machine β} (run : (x >>= f) m = result) :
    (∃ v m', x m = .ok v m' ∧ f v m' = result) ∨
      ∃ halt m', x m = .error halt m' ∧ result = .error halt m' := by
  rw [bind_eq_match] at run
  cases first : x m with
  | ok v m' =>
    rw [first] at run
    exact .inl ⟨v, m', rfl, run⟩
  | error halt m' =>
    rw [first] at run
    exact .inr ⟨halt, m', rfl, run.symm⟩

end Bind

end Run

end Quill
