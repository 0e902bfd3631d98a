import Quill.Evaluator
import Quill.Grammar.Program
import Quill.Token.Scan

set_option autoImplicit false

namespace Quill

/-- A machine that runs one source after the other, and the next unused reference identity. -/
structure Session where
  machine : Machine
  nextId : RefId

/-- What became of a source: a result, the errors that stopped it, or no end within the fuel. -/
inductive Outcome (α : Type) where
  | done (result : α)
  | failed (errors : List Error)
  | unfinished

/-- A tree whose names are resolved, and the next unused reference identity. -/
structure Prepared (α : Type) where
  tree : α
  distances : Distances
  nextId : RefId

def prepareProgram (nextId : RefId) (source : List UInt8) :
    Except (List Error) (Prepared (List Stmt)) := do
  let tokens ← scanTokens source
  let (program, nextId) ← parseProgram nextId tokens
  let distances ← resolveProgram program
  return ⟨program, distances, nextId⟩

def prepareExpression (nextId : RefId) (source : List UInt8) :
    Except (List Error) (Prepared Expr) := do
  let tokens ← scanTokens source
  let (e, nextId) ← parseExpression nextId tokens
  let distances ← resolveExpression e
  return ⟨e, distances, nextId⟩

namespace Session

def start (sink : Sink) (clock : Clock) : Session :=
  ⟨.start sink clock, 0⟩

def withMaxDepth (s : Session) (depth : Nat) : Session :=
  { s with machine.maxDepth := depth }

/-- Adds the distances of a prepared tree to the machine and runs it. -/
def perform {α β : Type} (s : Session) (prepared : Prepared α) (action : α → Run β) :
    Outcome β × Session :=
  let machine := s.machine
  let machine := { machine with distances := machine.distances.merge prepared.distances }
  match action prepared.tree machine with
  | .ok result m => (.done result, ⟨m, prepared.nextId⟩)
  | .error (.error e) m => (.failed [e], ⟨m, prepared.nextId⟩)
  | .error .outOfFuel m => (.unfinished, ⟨m, prepared.nextId⟩)

/-- After reading a source that came to nothing. The identities that were given out are gone. -/
def discard {α : Type} (s : Session) (rule : Parser α) (source : List UInt8) : Session :=
  match scanTokens source with
  | .error _ => s
  | .ok tokens => { s with nextId := (rule.after (.start s.nextId tokens)).nextId }

@[simp] theorem discard_machine {α : Type} (s : Session) (rule : Parser α) (source : List UInt8) :
    (s.discard rule source).machine = s.machine := by
  unfold discard
  split <;> rfl

def run (fuel : Nat) (s : Session) (source : List UInt8) : Outcome Unit × Session :=
  match prepareProgram s.nextId source with
  | .error errors => (.failed errors, s.discard programRule source)
  | .ok prepared => s.perform prepared (interpret fuel)

def evaluate (fuel : Nat) (s : Session) (source : List UInt8) : Outcome Value × Session :=
  match prepareExpression s.nextId source with
  | .error errors => (.failed errors, s.discard loneExpressionRule source)
  | .ok prepared => s.perform prepared (Quill.evaluate fuel)

def global? (s : Session) (name : String) : Option Value :=
  (s.machine.heap.nearest? s.machine.globals name).map Slot.value

def addNative (s : Session) (native : Native) : Except Error Session := do
  let heap := s.machine.heap
  let heap ← (heap.addNative native).define s.machine.globals native.name
    (.native heap.natives.size) 0
  return { s with machine.heap := heap }

end Session

end Quill
