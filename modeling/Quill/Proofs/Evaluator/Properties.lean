import Quill.Proofs.Evaluator.Calm
import Quill.Proofs.Evaluator.Initializers
import Quill.Proofs.Heap.Methods

set_option autoImplicit false

namespace Quill

structure Heap.Gets (h : Heap) (name : String) (parent : Option ClassId) (methods : List Function)
    (h' : Heap) : Prop where
  declares : h'.Declares h.classes.size name parent methods
  classes : ∃ cls, h'.classes = h.classes.push cls
  closures : ∀ (i : FunctionId) c, h.closures[i]? = some c → h'.closures[i]? = some c
  instances : h'.instances = h.instances

namespace Evaluator

variable {m m' : Machine} {name : Token}

theorem methodTable_tabulates (scope : ScopeId) (methods : List Function) {earlier : List Function}
    {table : Bindings FunctionId} (tabulates : m.heap.Tabulates scope table earlier) :
    ∃ table' closures, methodTable scope methods table m =
        .ok table' { m with heap := { m.heap with closures := closures } } ∧
      Heap.Tabulates { m.heap with closures := closures } scope table' (earlier ++ methods) ∧
      ∀ (i : FunctionId) c, m.heap.closures[i]? = some c → closures[i]? = some c := by
  induction methods generalizing table m earlier with
  | nil => exact ⟨table, m.heap.closures, rfl, by simpa using tabulates, fun _ _ found => found⟩
  | cons f methods ih =>
    let m₁ : Machine :=
      { m with heap := m.heap.addClosure ⟨f, scope, f.label == initializerName⟩ }
    have kept := (m.heap.grows_addClosure ⟨f, scope, f.label == initializerName⟩).closures
    have closes : m₁.heap.Closes scope m.heap.closures.size f := Array.getElem?_push_size
    obtain ⟨table', closures, rest, tabulates', kept'⟩ :=
      ih (m := m₁) ((tabulates.mono kept).insert closes)
    refine ⟨table', closures, rest, ?_, fun i c found => kept' i c (kept i c found)⟩
    rwa [List.append_assoc] at tabulates'

theorem buildClass_gets (name : Token) (parent : Option ClassId) (methods : List Function)
    (m : Machine) : ∃ m₁, m.heap.Gets name.lexeme parent methods m₁.heap ∧ m₁.scope = m.scope ∧
      (∀ s x, m.heap.Binds s x → m₁.heap.Binds s x) ∧ buildClass name parent methods m =
        (Run.assignNearest name (.classRef m.heap.classes.size) >>= fun _ => pure .normal) m₁ := by
  obtain ⟨scope, scopes, opened, binds⟩ : ∃ scope scopes, methodScope parent m =
      .ok scope { m with heap := { m.heap with scopes := scopes } } ∧
      ∀ s x, m.heap.Binds s x → Heap.Binds { m.heap with scopes := scopes } s x := by
    cases parent with
    | none => exact ⟨m.scope, m.heap.scopes, rfl, fun _ _ bound => bound⟩
    | some p => exact ⟨_, _, rfl, (m.heap.grows_addScope _).binds⟩
  let m₁ : Machine := { m with heap := { m.heap with scopes := scopes } }
  obtain ⟨table, closures, filled, tabulates, kept⟩ :=
    methodTable_tabulates scope methods (Heap.Tabulates.empty m₁.heap scope)
  let cls : Class := ⟨name.lexeme, parent, table⟩
  let h : Heap := { m₁.heap with closures := closures }
  refine ⟨{ m₁ with heap := h.addClass cls }, ⟨?_, ⟨cls, rfl⟩, kept, rfl⟩, rfl, binds, ?_⟩
  · exact ⟨table, scope, Array.getElem?_push_size, tabulates⟩
  · exact (Run.bind_of_ok opened).trans (Run.bind_of_ok filled)

theorem machineOf_buildClass (name : Token) (parent : Option ClassId) (methods : List Function)
    (m : Machine) :
    m.heap.Gets name.lexeme parent methods (machineOf (buildClass name parent methods m)).heap := by
  obtain ⟨m₁, gets, -, -, rest⟩ := buildClass_gets name parent methods m
  rw [rest, Run.bind_eq_match]
  unfold Run.assignNearest
  cases m₁.heap.slot m₁.scope name.lexeme name.line with
  | error e => exact gets
  | ok slot => exact { gets with }

theorem buildClass_bound {parent : Option ClassId} {methods : List Function} {flow : Flow}
    (bound : m.heap.Binds m.scope name.lexeme)
    (done : buildClass name parent methods m = .ok flow m') :
    m'.heap.value? m.scope name.lexeme = some (.classRef m.heap.classes.size) := by
  obtain ⟨m₁, -, scope, binds, rest⟩ := buildClass_gets name parent methods m
  obtain ⟨v, here⟩ : m₁.heap.Binds m₁.scope name.lexeme := scope ▸ binds _ _ bound
  rw [rest] at done
  obtain ⟨_, m₂, assigned, done⟩ := Run.of_bind_ok done
  unfold Run.assignNearest Heap.slot at assigned
  rw [Heap.nearest?, Heap.slotIn?_of_value? here] at assigned
  cases assigned
  cases done
  rw [← scope]
  exact (Heap.value?_write ..).trans (if_pos ⟨rfl, rfl, Heap.Binds.lt ⟨v, here⟩⟩)

end Evaluator

def Machine.bound (m : Machine) (method : Closure) (i : InstanceId) : Machine :=
  let h := m.heap.addScope ⟨Bindings.empty.insert "this" (.instanceRef i), some method.scope⟩
  { m with heap := h.addClosure { method with scope := m.heap.scopes.size } }

def Heap.NewlyBound (h : Heap) (method : FunctionId) (i : InstanceId) (id : FunctionId)
    (h' : Heap) : Prop :=
  ∃ closure scope, h.closures[method]? = some closure ∧ h.closures[id]? = none ∧
    h.scopes[scope]? = none ∧ h'.closures[id]? = some { closure with scope := scope } ∧
    h'.scopes[scope]? = some ⟨Bindings.empty.insert "this" (.instanceRef i), some closure.scope⟩

/-- What comes of asking an instance of a class for a name, where there is a field of that name or
not, and a method or not. -/
def Machine.Answers (m : Machine) (i : InstanceId) (c : ClassId) (name : Token) :
    Option Value → Option Function → Prop
  | some v, _ => Evaluator.property i name m = .ok v m
  | none, some f => ∃ method id m', m.heap.findMethod? c name.lexeme = some method ∧
      m.heap.Codes method f ∧ Evaluator.property i name m = .ok (.function id) m' ∧
      m.heap.NewlyBound method i id m'.heap
  | none, none => m.heap.findMethod? c name.lexeme = none ∧ Evaluator.property i name m =
      .error (.error (.runtime (.undefinedProperty name.lexeme) name.line)) m

theorem Machine.bound_newlyBound (m : Machine) {method : FunctionId} {closure : Closure}
    (found : m.heap.closures[method]? = some closure) (i : InstanceId) :
    m.heap.NewlyBound method i m.heap.closures.size (m.bound closure i).heap :=
  ⟨closure, _, found, Array.getElem?_size, Array.getElem?_size, Array.getElem?_push_size,
    Array.getElem?_push_size⟩

namespace Evaluator

variable {m : Machine} {i : InstanceId} {name : Token}

theorem bindMethod_eq {method : FunctionId} {closure : Closure}
    (found : m.heap.closures[method]? = some closure) (i : InstanceId) :
    bindMethod method i m = .ok m.heap.closures.size (m.bound closure i) := by
  unfold bindMethod
  rw [Run.Lawful.object_bind_eq, found]
  rfl

theorem property_field {v : Value} (field : m.heap.field? i name.lexeme = some v) :
    property i name m = .ok v m := by
  obtain ⟨o, found, field⟩ := Option.bind_eq_some_iff.mp field
  unfold property
  rw [Run.Lawful.object_bind_eq, found]
  dsimp only
  rw [field]
  rfl

theorem property_noField {o : Instance} (found : m.heap.instances[i]? = some o)
    (noField : m.heap.field? i name.lexeme = none) : property i name m =
      match m.heap.findMethod? o.classId name.lexeme with
      | some method => (Value.function <$> bindMethod method i) m
      | none => .error (.error (.runtime (.undefinedProperty name.lexeme) name.line)) m := by
  have empty : o.fields.find? name.lexeme = none := by
    unfold Heap.field? at noField
    rw [found] at noField
    exact noField
  unfold property
  rw [Run.Lawful.object_bind_eq, found]
  dsimp only
  rw [empty]
  refine (Run.bind_of_ok rfl).trans ?_
  cases m.heap.findMethod? o.classId name.lexeme <;> rfl

theorem property_answers (founded : m.heap.Founded) {o : Instance}
    (found : m.heap.instances[i]? = some o) {chain : List (List Function)}
    (descends : m.heap.Descends o.classId chain) (name : Token) :
    m.Answers i o.classId name (m.heap.field? i name.lexeme) (nearestNamed? chain name.lexeme) := by
  cases field : m.heap.field? i name.lexeme with
  | some v => exact property_field field
  | none =>
    have asked := property_noField found field
    have nearest := descends.findMethod? founded name.lexeme
    generalize same : m.heap.findMethod? o.classId name.lexeme = method at nearest asked
    generalize nearestNamed? chain name.lexeme = f at nearest
    cases nearest with
    | none => exact ⟨same, asked⟩
    | @some method f codes =>
      obtain ⟨scope, closes⟩ := codes
      dsimp only at asked
      rw [map_eq_pure_bind, Run.bind_of_ok (bindMethod_eq closes i)] at asked
      exact ⟨method, _, _, same, ⟨scope, closes⟩, asked, m.bound_newlyBound closes i⟩

end Evaluator

end Quill
