import Quill.Proofs.Evaluator.Progress
import Quill.Proofs.Evaluator.Realm
import Quill.Proofs.Heap.Intact

set_option autoImplicit false

namespace Quill

namespace Heap.Intact

variable {h : Heap} {root : ScopeId}

theorem slotIn?_has (intact : h.Intact root) {s : ScopeId} {name : String} {slot : Slot}
    (found : h.slotIn? s name = some slot) : h.Has slot.value := by
  rw [slotIn?_eq, Option.map_eq_some_iff] at found
  obtain ⟨v, found, rfl⟩ := found
  exact intact.known_values found

theorem nearest?_has (intact : h.Intact root) {s : ScopeId} {name : String} {slot : Slot}
    (found : h.nearest? s name = some slot) : h.Has slot.value := by
  fun_induction nearest? h s name with
  | case1 s slot' here =>
    cases found
    exact intact.slotIn?_has here
  | case2 | case4 => cases found
  | case3 s _ p _ _ ih => exact ih found

theorem slot_has (intact : h.Intact root) {s : ScopeId} {name : String} {line : Nat} {slot : Slot}
    (found : h.slot s name line = .ok slot) : h.Has slot.value := by
  unfold Heap.slot at found
  split at found
  next slot' near =>
    cases found
    exact intact.nearest?_has near
  next => cases found

theorem slotAt_has (intact : h.Intact root) {s : ScopeId} {d : Nat} {name : String} {line : Nat}
    {slot : Slot} (found : h.slotAt s d name line = .ok slot) : h.Has slot.value := by
  unfold slotAt at found
  split at found
  next => cases found
  next target _ =>
    split at found
    next slot' here =>
      cases found
      exact intact.slotIn?_has here
    next => cases found

theorem getAt_has (intact : h.Intact root) {s : ScopeId} {d : Nat} {name : String} {line : Nat}
    {v : Value} (found : h.getAt s d name line = .ok v) : h.Has v := by
  unfold getAt at found
  cases at' : h.slotAt s d name line with
  | error e =>
    rw [at'] at found
    cases found
  | ok slot =>
    rw [at'] at found
    cases found
    exact intact.slotAt_has at'

end Heap.Intact

theorem Evaluator.superBindings_this {id : RefId} {keyword : Token} {m : Machine}
    {p : ClassId × InstanceId} (found : Evaluator.superBindings id keyword m = .ok p) :
    ∃ d, m.heap.getAt m.scope d "this" keyword.line = .ok (.instanceRef p.2) := by
  unfold Evaluator.superBindings at found
  split at found
  · cases found
  · cases found
  next d _ =>
    refine ⟨d, ?_⟩
    cases above : m.heap.getAt m.scope (d + 1) "super" keyword.line with
    | error e =>
      rw [above] at found
      cases found
    | ok v =>
      rw [above] at found
      cases v with
      | classRef c =>
        cases here : m.heap.getAt m.scope d "this" keyword.line with
        | error e =>
          simp only [here] at found
          cases found
        | ok v =>
          simp only [here] at found
          cases v with
          | instanceRef i =>
            cases found
            rfl
          | _ => cases found
      | _ => cases found

namespace Machine

structure Intact (m : Machine) : Prop where
  heap : m.heap.Intact m.globals
  scope : m.scope < m.heap.scopes.size

structure Leaves (m m' : Machine) : Prop where
  persists : m.heap.Persists m'.heap
  intact : m'.heap.Intact m'.globals
  globals : m'.globals = m.globals
  scope : m'.scope = m.scope

namespace Leaves

variable {m m' m'' : Machine}

theorem refl (intact : m.Intact) : m.Leaves m :=
  ⟨.refl _, intact.heap, rfl, rfl⟩

theorem trans (first : m.Leaves m') (second : m'.Leaves m'') : m.Leaves m'' :=
  ⟨first.persists.trans second.persists, second.intact, second.globals.trans first.globals,
    second.scope.trans first.scope⟩

theorem machine (leaves : m.Leaves m') (intact : m.Intact) : m'.Intact :=
  ⟨leaves.intact, leaves.scope ▸ leaves.persists.scope_lt intact.scope⟩

end Leaves

end Machine

def Machine.Yields {α : Type} (m : Machine) (K : α → Heap → Prop) :
    EStateM.Result Halt Machine α → Prop
  | .ok a m' => m.Leaves m' ∧ K a m'.heap
  | .error _ m' => m.Leaves m'

theorem Machine.Yields.leaves {α : Type} {m : Machine} {K : α → Heap → Prop}
    {result : EStateM.Result Halt Machine α} (yields : m.Yields K result) :
    m.Leaves (machineOf result) := by
  cases result with
  | ok => exact yields.1
  | error => exact yields

theorem Machine.Yields.after {α : Type} {m m' : Machine} {K : α → Heap → Prop}
    {result : EStateM.Result Halt Machine α} (leaves : m.Leaves m') (yields : m'.Yields K result) :
    m.Yields K result := by
  cases result with
  | ok => exact ⟨leaves.trans yields.1, yields.2⟩
  | error => exact leaves.trans yields

def Run.Secure {α : Type} (h : Heap) (K : α → Heap → Prop) (x y : Run α) : Prop :=
  ∀ m : Machine, m.Intact → h.Persists m.heap → m.Yields K (x m) ∧ y m = x m

def Heap.Holds (v : Value) (h : Heap) : Prop :=
  h.Has v

def Heap.HoldsAll (vs : List Value) (h : Heap) : Prop :=
  ∀ v ∈ vs, h.Has v

def Heap.HasScope (s : ScopeId) (h : Heap) : Prop :=
  s < h.scopes.size

def Heap.HasClosure (id : FunctionId) (h : Heap) : Prop :=
  id < h.closures.size

def Flow.Known (flow : Flow) (h : Heap) : Prop :=
  match flow with
  | .returned v => h.Has v
  | .normal | .broke => True

namespace Run.Secure

variable {h : Heap} {α β : Type} {K : α → Heap → Prop} {x y : Run α}

theorem pure {a : α} (later : ∀ h', h.Persists h' → K a h') :
    Secure h K (Pure.pure a : Run α) (Pure.pure a) :=
  fun m intact persists => ⟨⟨.refl intact, later m.heap persists⟩, rfl⟩

theorem fail (e : Error) : Secure h K (Run.fail e : Run α) (Run.fail e) :=
  fun _ intact _ => ⟨Machine.Leaves.refl intact, rfl⟩

theorem failAt (line : Nat) (fault : RuntimeFault) :
    Secure h K (Run.failAt line fault : Run α) (Run.failAt line fault) :=
  fail _

theorem failInternally (fault : InternalFault) :
    Secure h K (Run.failInternally fault : Run α) (Run.failInternally fault) :=
  fail _

theorem outOfFuel : Secure h K (Run.outOfFuel : Run α) Run.outOfFuel :=
  fun _ intact _ => ⟨Machine.Leaves.refl intact, rfl⟩

theorem bind {K' : β → Heap → Prop} {f g : α → Run β} (first : Secure h K x y)
    (next : ∀ a h', h.Persists h' → K a h' → Secure h' K' (f a) (g a)) :
    Secure h K' (x >>= f) (y >>= g) := by
  intro m intact persists
  obtain ⟨yields, same⟩ := first m intact persists
  rw [bind_eq_match, bind_eq_match, same]
  cases result : x m with
  | error halt m' =>
    rw [result] at yields
    exact ⟨yields, rfl⟩
  | ok a m' =>
    rw [result] at yields
    obtain ⟨leaves, given⟩ := yields
    have later := next a m'.heap (persists.trans leaves.persists) given
    obtain ⟨yields', same'⟩ := later m' (leaves.machine intact) (.refl _)
    exact ⟨yields'.after leaves, same'⟩

theorem map {K' : β → Heap → Prop} (f : α → β) (first : Secure h K x y)
    (given : ∀ a h' h'', h'.Persists h'' → K a h' → K' (f a) h'') :
    Secure h K' (f <$> x) (f <$> y) := by
  rw [map_eq_pure_bind, map_eq_pure_bind]
  exact first.bind fun a h' _ holds => pure fun h'' later => given a h' h'' later holds

theorem of_lookup {γ : Type} (lookup : Machine → Except Error γ) (value : Machine → γ → α)
    (heap : Machine → γ → Heap)
    (step : ∀ m, x m = match lookup m with
      | .error e => .error (.error e) m
      | .ok a => .ok (value m a) { m with heap := heap m a })
    (keeps : ∀ m a, m.Intact → h.Persists m.heap → lookup m = .ok a →
      m.heap.Persists (heap m a) ∧ (heap m a).Intact m.globals ∧ K (value m a) (heap m a)) :
    Secure h K x x := by
  intro m intact persists
  refine ⟨?_, rfl⟩
  rw [step]
  cases result : lookup m with
  | error e => exact .refl intact
  | ok a =>
    obtain ⟨later, intact', given⟩ := keeps m a intact persists result
    exact ⟨⟨later, intact', rfl, rfl⟩, given⟩

theorem ask {f : Machine → Except Error α}
    (given : ∀ m a, m.Intact → h.Persists m.heap → f m = .ok a → K a m.heap) :
    Secure h K (Run.ask f) (Run.ask f) := by
  refine of_lookup f (fun _ => id) (fun m _ => m.heap) (fun m => ?_) fun m a intact persists found =>
    ⟨.refl _, intact.heap, given m a intact persists found⟩
  unfold Run.ask
  cases f m <;> rfl

theorem object {p : Heap → Option α}
    (given : ∀ (m : Machine) a, m.Intact → h.Persists m.heap → p m.heap = some a → K a m.heap) :
    Secure h K (Run.object p) (Run.object p) := by
  intro m intact persists
  refine ⟨?_, rfl⟩
  unfold Run.object
  cases found : p m.heap with
  | none => exact .refl intact
  | some a => exact ⟨.refl intact, given m a intact persists found⟩

theorem of_heap (value : Machine → α) (heap : Machine → Heap)
    (step : ∀ m, x m = .ok (value m) { m with heap := heap m })
    (keeps : ∀ m, m.Intact → h.Persists m.heap →
      m.heap.Persists (heap m) ∧ (heap m).Intact m.globals ∧ K (value m) (heap m)) :
    Secure h K x x :=
  of_lookup (fun _ => .ok ()) (fun m _ => value m) (fun m _ => heap m) step
    fun m _ intact persists _ => keeps m intact persists

theorem currentScope : Secure h Heap.HasScope Run.currentScope Run.currentScope :=
  of_heap (·.scope) (·.heap) (fun _ => rfl) fun _ intact _ => ⟨.refl _, intact.heap, intact.scope⟩

theorem newScope {vars : Bindings Value} {parent : ScopeId} (values : vars.Known h)
    (lt : parent < h.scopes.size) :
    Secure h Heap.HasScope (Run.newScope vars parent) (Run.newScope vars parent) := by
  refine of_heap (·.heap.scopes.size) (·.heap.addScope ⟨vars, some parent⟩) (fun _ => rfl)
    fun m intact persists => ⟨(m.heap.grows_addScope _).persists, ?_, ?_⟩
  · exact intact.heap.addScope (values.persists persists) (persists.scope_lt lt)
  · simp [Heap.HasScope, Heap.addScope]

theorem newClosure (closure : Closure) (lt : closure.scope < h.scopes.size) :
    Secure h Heap.HasClosure (Run.newClosure closure) (Run.newClosure closure) := by
  refine of_heap (·.heap.closures.size) (·.heap.addClosure closure) (fun _ => rfl)
    fun m intact persists => ⟨(m.heap.grows_addClosure _).persists, ?_, ?_⟩
  · exact intact.heap.addClosure (persists.scope_lt lt)
  · simp [Heap.HasClosure, Heap.addClosure]

theorem newClass (cls : Class) (parent : ∀ p, cls.superclass = some p → h.Has (.classRef p))
    (methods : ∀ name id, cls.methods.find? name = some id → h.Has (.function id)) :
    Secure h (fun c => Heap.Holds (.classRef c)) (Run.newClass cls) (Run.newClass cls) := by
  refine of_heap (·.heap.classes.size) (·.heap.addClass cls) (fun _ => rfl)
    fun m intact persists => ⟨(m.heap.grows_addClass _).persists, ?_, ?_⟩
  · exact intact.heap.addClass ⟨fun p link => persists.has (parent p link),
      fun name id found => persists.has (methods name id found)⟩
  · simp [Heap.Holds, Heap.Has, Heap.addClass]

theorem newInstance {c : ClassId} (has : h.Has (.classRef c)) :
    Secure h (fun i => Heap.Holds (.instanceRef i)) (Run.newInstance c) (Run.newInstance c) := by
  refine of_heap (·.heap.instances.size) (·.heap.addInstance ⟨c, {}⟩) (fun _ => rfl)
    fun m intact persists => ⟨(m.heap.grows_addInstance _).persists, ?_, ?_⟩
  · exact intact.heap.addInstance (persists.has has)
  · simp [Heap.Holds, Heap.Has, Heap.addInstance]

theorem setField (i : InstanceId) (name : Token) {value : Value} (has : h.Has value) :
    Secure h (fun _ _ => True) (Run.setField i name value) (Run.setField i name value) :=
  of_heap (fun _ => ()) (·.heap.setField i name.lexeme value) (fun _ => rfl)
    fun m intact persists => ⟨(m.heap.grows_setField i name.lexeme value).persists,
      intact.heap.setField i name.lexeme (persists.has has), trivial⟩

theorem of_write {γ : Type} (lookup : Machine → Except Error γ) (scope : Machine → γ → ScopeId)
    (name : Token) {value : Value} {x : Run Unit}
    (step : ∀ m, x m = match lookup m with
      | .error e => .error (.error e) m
      | .ok a => .ok () { m with heap := m.heap.write (scope m a) name.lexeme value })
    (has : h.Has value) : Secure h (fun _ _ => True) x x :=
  of_lookup lookup (fun _ _ => ()) (fun m a => m.heap.write (scope m a) name.lexeme value) step
    fun m a intact persists _ => ⟨m.heap.persists_write _ _ _,
      intact.heap.write (scope m a) name.lexeme (persists.has has), trivial⟩

theorem define (name : Token) (value : Value) (has : h.Has value) :
    Secure h (fun _ _ => True) (Run.define name value) (Run.define name value) := by
  refine of_write (fun m => m.heap.definable m.scope name.lexeme name.line) (fun m _ => m.scope)
    name (fun m => ?_) has
  unfold Run.define
  cases m.heap.definable m.scope name.lexeme name.line <;> rfl

theorem assignNearest (name : Token) (value : Value) (has : h.Has value) :
    Secure h (fun _ _ => True) (Run.assignNearest name value) (Run.assignNearest name value) := by
  refine of_write (fun m => m.heap.slot m.scope name.lexeme name.line) (fun _ slot => slot.scope)
    name (fun m => ?_) has
  unfold Run.assignNearest
  cases m.heap.slot m.scope name.lexeme name.line <;> rfl

theorem writeRef (id : RefId) (name : Token) {value : Value} (has : h.Has value) :
    Secure h (fun _ _ => True) (Run.writeRef id name value) (Run.writeRef id name value) := by
  refine of_write (slotOf · id name) (fun _ slot => slot.scope) name (fun m => ?_) has
  unfold Run.writeRef
  cases slotOf m id name <;> rfl

theorem readRef (id : RefId) (name : Token) :
    Secure h Heap.Holds (Run.readRef id name) (Run.readRef id name) := by
  refine of_lookup (slotOf · id name) (fun _ => Slot.value) (fun m _ => m.heap) (fun m => ?_)
    fun m slot intact _ found => ⟨.refl _, intact.heap, ?_⟩
  · unfold Run.readRef
    cases slotOf m id name <;> rfl
  · unfold slotOf at found
    split at found
    · exact intact.heap.slotAt_has found
    · exact intact.heap.slot_has found

theorem print (value : Value) :
    Secure h (fun _ _ => True) (Run.print value) (Run.print value) := by
  intro m intact _
  refine ⟨?_, rfl⟩
  unfold Run.print
  dsimp only
  split
  · exact ⟨⟨.refl _, intact.heap, rfl, rfl⟩, trivial⟩
  · exact ⟨.refl _, intact.heap, rfl, rfl⟩

theorem readClock : Secure h Heap.Holds Run.readClock Run.readClock :=
  fun _ intact _ => ⟨⟨⟨.refl _, intact.heap, rfl, rfl⟩, trivial⟩, rfl⟩

theorem borrowing {enter : Machine → Machine} {leave : Machine → Machine → Machine}
    (inner : Secure h K x y) (entered : ∀ m, (enter m).heap = m.heap)
    (inside : ∀ m, m.Intact → h.Persists m.heap → (enter m).Intact)
    (left : ∀ m m', (leave m m').heap = m'.heap)
    (back : ∀ m m', (enter m).Leaves m' → m.Leaves (leave m m')) :
    Secure h K (Run.borrowing enter leave x) (Run.borrowing enter leave y) := by
  intro m intact persists
  obtain ⟨yields, same⟩ := inner (enter m) (inside m intact persists) (entered m ▸ persists)
  unfold Run.borrowing
  rw [same]
  refine ⟨?_, rfl⟩
  cases result : x (enter m) with
  | ok a m' =>
    rw [result] at yields
    exact ⟨back m m' yields.1, left m m' ▸ yields.2⟩
  | error halt m' =>
    rw [result] at yields
    exact back m m' yields

theorem inScope {s : ScopeId} (lt : s < h.scopes.size) (inner : Secure h K x y) :
    Secure h K (Run.inScope s x) (Run.inScope s y) := by
  rw [inScope_eq, inScope_eq]
  apply inner.borrowing
  · exact fun _ => rfl
  · exact fun _ intact persists => ⟨intact.heap, persists.scope_lt lt⟩
  · exact fun _ _ => rfl
  · exact fun _ _ leaves => { leaves with scope := rfl }

theorem oneDeeper (line : Nat) (inner : Secure h K x y) :
    Secure h K (Run.oneDeeper line x) (Run.oneDeeper line y) := by
  rw [oneDeeper_eq, oneDeeper_eq]
  refine (ask (K := fun _ _ => True) fun _ _ _ _ _ => trivial).bind fun _ h' later _ => ?_
  apply borrowing (h := h')
  · exact fun m intact persists => inner m intact (later.trans persists)
  · exact fun _ => rfl
  · exact fun _ intact _ => ⟨intact.heap, intact.scope⟩
  · exact fun _ _ => rfl
  · exact fun _ _ leaves => { leaves with }

theorem bindMethod (method : FunctionId) {i : InstanceId} (has : h.Has (.instanceRef i)) :
    Secure h Heap.HasClosure (Evaluator.bindMethod method i) (Evaluator.bindMethod method i) := by
  have closed : Secure h (fun c => Heap.HasScope c.scope) (Run.object (·.closures[method]?))
      (Run.object (·.closures[method]?)) :=
    object fun m c intact _ found => intact.heap.closures method c found
  refine closed.bind fun c h' later lt => ?_
  have this : (Bindings.empty.insert "this" (.instanceRef i)).Known h' :=
    (Bindings.known_empty h').insert "this" (later.has has)
  exact (newScope this lt).bind fun scope _ _ lt => newClosure { c with scope := scope } lt

theorem giveResult (closure : Closure) (line : Nat) {value : Value} (has : h.Has value) :
    Secure h Heap.Holds (Evaluator.giveResult closure line value)
      (Evaluator.giveResult closure line value) := by
  unfold Evaluator.giveResult
  split
  · exact ask fun m v intact _ found => intact.heap.getAt_has found
  · exact pure fun h' later => later.has has

theorem resultOf (closure : Closure) (line : Nat) {flow : Flow} (known : flow.Known h) :
    Secure h Heap.Holds (Evaluator.resultOf closure line flow)
      (Evaluator.resultOf closure line flow) := by
  cases flow with
  | normal => exact giveResult closure line trivial
  | returned v => exact giveResult closure line known
  | broke => exact failInternally _

theorem boundMethod (found : Option FunctionId) {i : InstanceId} (has : h.Has (.instanceRef i))
    (name : Token) :
    Secure h Heap.Holds
      (match found with
      | some method => Value.function <$> Evaluator.bindMethod method i
      | none => Run.failAt name.line (.undefinedProperty name.lexeme))
      (match found with
      | some method => Value.function <$> Evaluator.bindMethod method i
      | none => Run.failAt name.line (.undefinedProperty name.lexeme)) := by
  cases found with
  | none => exact failAt _ _
  | some method =>
    exact (bindMethod method has).map _ fun id _ _ later lt => later.has (v := .function id) lt

theorem findMethod (c : ClassId) (name : String) :
    Secure h (fun _ _ => True) (Run.ask fun m => .ok (m.heap.findMethod? c name))
      (Run.ask fun m => .ok (m.heap.findMethod? c name)) :=
  ask fun _ _ _ _ _ => trivial

theorem property {i : InstanceId} (has : h.Has (.instanceRef i)) (name : Token) :
    Secure h Heap.Holds (Evaluator.property i name) (Evaluator.property i name) := by
  have sound : Secure h Instance.Sound (Run.object (·.instances[i]?))
      (Run.object (·.instances[i]?)) :=
    object fun m o intact _ found => intact.heap.instances i o found
  refine sound.bind fun o h' later sound => ?_
  cases field : o.fields.find? name.lexeme with
  | some v => exact pure fun h'' later' => later'.has (sound.fields _ v field)
  | none =>
    refine (findMethod o.classId name.lexeme).bind fun found h'' later' _ => ?_
    exact boundMethod found (later'.has (later.has has)) name

theorem evalSuper (id : RefId) (keyword method : Token) :
    Secure h Heap.Holds (Evaluator.evalSuper id keyword method)
      (Evaluator.evalSuper id keyword method) := by
  have bound : Secure h (fun p h' => h'.Has (.instanceRef p.2))
      (Run.ask (Evaluator.superBindings id keyword)) (Run.ask (Evaluator.superBindings id keyword)) := by
    refine ask fun m p intact _ found => ?_
    obtain ⟨d, this⟩ := Evaluator.superBindings_this found
    exact intact.heap.getAt_has this
  refine bound.bind fun p h' _ has => ?_
  obtain ⟨c, i⟩ := p
  refine (findMethod c method.lexeme).bind fun found h'' later _ => ?_
  exact boundMethod found (later.has has) method

theorem evalFunction (f : Function) :
    Secure h Heap.Holds (Evaluator.evalFunction f) (Evaluator.evalFunction f) :=
  currentScope.bind fun scope _ _ lt =>
    (newClosure ⟨f, scope, false⟩ lt).map _ fun id _ _ later lt => later.has (v := .function id) lt

theorem execFunction (f : Function) :
    Secure h Flow.Known (Evaluator.execFunction f) (Evaluator.execFunction f) := by
  unfold Evaluator.execFunction
  cases f.name with
  | none => exact failInternally _
  | some name =>
    refine currentScope.bind fun scope _ _ lt => ?_
    refine (newClosure ⟨f, scope, false⟩ lt).bind fun id _ _ has => ?_
    exact (define name (.function id) has).bind fun _ _ _ _ => pure fun _ _ => trivial

theorem methodScope {parent : Option ClassId} (has : ∀ c, parent = some c → h.Has (.classRef c)) :
    Secure h Heap.HasScope (Evaluator.methodScope parent) (Evaluator.methodScope parent) := by
  cases parent with
  | none => exact currentScope
  | some c =>
    refine currentScope.bind fun _ h' later lt => newScope ?_ lt
    exact (Bindings.known_empty h').insert "super" (later.has (has c rfl))

theorem methodTable {scope : ScopeId} (lt : scope < h.scopes.size) (methods : List Function)
    {table : Bindings FunctionId} (has : ∀ x id, table.find? x = some id → h.Has (.function id)) :
    Secure h (fun table h' => ∀ x id, table.find? x = some id → h'.Has (.function id))
      (Evaluator.methodTable scope methods table) (Evaluator.methodTable scope methods table) := by
  induction methods generalizing table h with
  | nil => exact pure fun h' later x id found => later.has (has x id found)
  | cons f methods ih =>
    refine (newClosure ⟨f, scope, _⟩ lt).bind fun id h' later new => ?_
    refine ih (later.scope_lt lt) fun x id' found => ?_
    rw [Bindings.find?_insert] at found
    split at found
    · cases found
      exact new
    · exact later.has (has x id' found)

end Run.Secure

theorem Evaluator.bindParams_known {params : List Token} {values : List Value}
    {vars vars' : Bindings Value} {h : Heap} (known : vars.Known h) (has : ∀ v ∈ values, h.Has v)
    (bound : bindParams params values vars = .ok vars') : vars'.Known h := by
  induction params, values, vars using bindParams.induct with
  | case1 param params value values vars taken =>
    rw [bindParams, if_pos taken] at bound
    cases bound
  | case2 param params value values vars free ih =>
    rw [bindParams, if_neg free] at bound
    have rest : ∀ v ∈ values, h.Has v := fun v mem => has v (List.mem_cons_of_mem _ mem)
    exact ih (known.insert param.lexeme (has value List.mem_cons_self)) rest bound
  | case3 params values vars short =>
    rw [bindParams] at bound
    · cases bound
      exact known
    · exact short

namespace Operator

theorem unary_has (h : Heap) {operator : Token} {v v' : Value}
    (found : unary operator v = .ok v') : h.Has v' := by
  unfold unary at found
  split at found
  · split at found <;> cases found
    trivial
  all_goals cases found
  trivial

theorem onNumbers_has {h : Heap} {line : Nat} {f : Float → Float → Value} {a b v : Value}
    (found : onNumbers line f a b = .ok v) (plain : ∀ x y, h.Has (f x y)) : h.Has v := by
  unfold onNumbers at found
  split at found <;> cases found
  exact plain _ _

theorem binary_has (h : Heap) {operator : Token} {a b v : Value}
    (found : binary h operator a b = .ok v) : h.Has v := by
  unfold binary at found
  split at found
  · unfold add at found
    split at found <;> cases found <;> trivial
  all_goals first
    | exact onNumbers_has found fun _ _ => trivial
    | cases found
  all_goals trivial

end Operator

def Task.Known (t : Task) (h : Heap) : Prop :=
  match t with
  | .expr _ | .stmt _ => True
  | .call callee arguments _ => h.Has callee.value ∧ Heap.HoldsAll arguments h
  | .act .. => False

theorem Task.Known.persists {t : Task} {h h' : Heap} (known : t.Known h) (later : h.Persists h') :
    t.Known h' := by
  cases t with
  | expr | stmt => trivial
  | call => exact ⟨later.has known.1, later.has_all known.2⟩
  | act => exact known

def Task.Answered : (t : Task) → t.Result → Heap → Prop
  | .expr _ | .call .. | .act .. => Heap.Holds
  | .stmt _ => Flow.Known

structure Evaluator.Secure (ev ev' : Evaluator) : Prop where
  rounds : ev'.rounds = ev.rounds
  answers : ∀ t h, t.Known h → Run.Secure h t.Answered (ev.answer t) (ev'.answer t)

namespace Evaluator.Secure

open Run.Secure

variable {ev ev' : Evaluator} {h : Heap}

theorem eval (secure : Secure ev ev') (e : Expr) :
    Run.Secure h Heap.Holds (ev.eval e) (ev'.eval e) :=
  secure.answers (.expr e) h trivial

theorem exec (secure : Secure ev ev') (s : Stmt) :
    Run.Secure h Flow.Known (ev.exec s) (ev'.exec s) :=
  secure.answers (.stmt s) h trivial

theorem done {flow : Flow} (known : flow.Known h) :
    Run.Secure h Flow.Known (Pure.pure flow : Run Flow) (Pure.pure flow) := by
  apply Run.Secure.pure
  intro h' later
  cases flow with
  | normal | broke => trivial
  | returned v => exact later.has known

theorem sequence (secure : Secure ev ev') (body : List Stmt) :
    Run.Secure h Flow.Known (ev.sequence body) (ev'.sequence body) := by
  induction body generalizing h with
  | nil => exact done trivial
  | cons s body ih =>
    refine (secure.exec s).bind fun flow h' _ known => ?_
    cases flow with
    | normal => exact ih
    | returned _ | broke => exact done known

theorem callClosure (secure : Secure ev ev') (id : FunctionId) {arguments : List Value}
    (has : Heap.HoldsAll arguments h) (line : Nat) :
    Run.Secure h Heap.Holds (ev.callClosure id arguments line) (ev'.callClosure id arguments line) := by
  have closed : Run.Secure h (fun c => Heap.HasScope c.scope) (Run.object (·.closures[id]?))
      (Run.object (·.closures[id]?)) :=
    object fun m c intact _ found => intact.heap.closures id c found
  refine closed.bind fun closure h₁ later₁ lt => ?_
  have params : Run.Secure h₁ Bindings.Known
      (Run.ask fun _ => bindParams closure.code.params arguments {})
      (Run.ask fun _ => bindParams closure.code.params arguments {}) :=
    ask fun m vars _ later found =>
      bindParams_known (Bindings.known_empty _) (later.has_all (later₁.has_all has)) found
  refine params.bind fun vars h₂ later₂ known => ?_
  refine (newScope known (later₂.scope_lt lt)).bind fun scope h₃ _ lt' => ?_
  exact (inScope lt' (secure.sequence _)).bind fun flow _ _ known => .resultOf closure line known

theorem construct (secure : Secure ev ev') {c : ClassId} (has : h.Has (.classRef c))
    {arguments : List Value} (all : Heap.HoldsAll arguments h) (line : Nat) :
    Run.Secure h Heap.Holds (ev.construct c arguments line) (ev'.construct c arguments line) := by
  refine (newInstance has).bind fun i h₁ later₁ new => ?_
  refine (findMethod c initializerName).bind fun method h₂ later₂ _ => ?_
  cases method with
  | none => exact pure fun h' later => later.has (later₂.has new)
  | some method =>
    refine (Run.Secure.bindMethod method (later₂.has new)).bind fun bound h₃ later₃ _ => ?_
    have later := later₁.trans (later₂.trans later₃)
    refine (secure.callClosure bound (later.has_all all) line).bind fun _ h₄ later₄ _ => ?_
    exact pure fun h' later => later.has (later₄.has (later₃.has (later₂.has new)))

theorem callNative (secure : Secure ev ev') (id : NativeId) {arguments : List Value}
    (all : Heap.HoldsAll arguments h) (line : Nat) :
    Run.Secure h Heap.Holds (ev.callNative id arguments line) (ev'.callNative id arguments line) := by
  have honest : Run.Secure h Native.Honest (Run.object (·.natives[id]?))
      (Run.object (·.natives[id]?)) :=
    object fun m native intact _ found => intact.heap.natives id native found
  refine honest.bind fun native h' later honest => ?_
  have reply (h'' : Heap) (later' : h'.Persists h'') : (native.respond arguments line).Known h'' :=
    honest.known h'' later' arguments line ((later.trans later').has_all all)
  cases answer : native.respond arguments line with
  | value v =>
    rw [answer] at reply
    exact pure reply
  | error e => exact fail e
  | invoke callee arguments' =>
    rw [answer] at reply
    exact secure.answers (.call callee arguments' line) h' (reply h' (.refl h'))
  | now => exact readClock
  | act deed => exact (honest.discreet arguments line deed answer).elim

theorem invokeRule (secure : Secure ev ev') {callee : Callable} (has : h.Has callee.value)
    {arguments : List Value} (all : Heap.HoldsAll arguments h) (line : Nat) :
    Run.Secure h Heap.Holds (ev.invokeRule callee arguments line)
      (ev'.invokeRule callee arguments line) := by
  cases callee with
  | function id => exact secure.callClosure id all line
  | native id => exact secure.callNative id all line
  | classRef id => exact secure.construct has all line

theorem evalAll (secure : Secure ev ev') (es : List Expr) {found : List Value}
    (all : Heap.HoldsAll found h) :
    Run.Secure h Heap.HoldsAll (ev.evalAll es found) (ev'.evalAll es found) := by
  induction es generalizing found h with
  | nil => exact pure fun h' later v mem => later.has (all v (List.mem_reverse.mp mem))
  | cons e es ih =>
    refine (secure.eval e).bind fun v h' later has => ih fun v' mem => ?_
    rcases List.mem_cons.mp mem with rfl | old
    · exact has
    · exact later.has (all v' old)

theorem evalCall (secure : Secure ev ev') (callee : Expr) (paren : Token) (arguments : List Expr) :
    Run.Secure h Heap.Holds (ev.evalCall callee paren arguments)
      (ev'.evalCall callee paren arguments) := by
  refine (secure.eval callee).bind fun f h₁ _ has => ?_
  have none' : Heap.HoldsAll [] h₁ := fun _ mem => by cases mem
  refine (secure.evalAll arguments none').bind fun values h₂ later₂ all => ?_
  cases found : f.callable? with
  | none => exact failAt _ _
  | some callable =>
    refine (ask (K := fun _ _ => True) fun _ _ _ _ _ => trivial).bind fun arity h₃ later₃ _ => ?_
    have has' : h₃.Has callable.value := by
      rw [Value.callable?_value found]
      exact later₃.has (later₂.has has)
    by_cases fits : values.length = arity
    · simp only [fits, if_true]
      exact (secure.invokeRule has' (later₃.has_all all) paren.line).oneDeeper paren.line
    · simp only [fits, if_false]
      exact failAt _ _

theorem unary (operator : Token) (v : Value) :
    Run.Secure h Heap.Holds (Run.ask fun _ => Operator.unary operator v)
      (Run.ask fun _ => Operator.unary operator v) :=
  ask fun m _ _ _ found => Operator.unary_has m.heap found

theorem binary (operator : Token) (a b : Value) :
    Run.Secure h Heap.Holds (Run.ask fun m => Operator.binary m.heap operator a b)
      (Run.ask fun m => Operator.binary m.heap operator a b) :=
  ask fun m _ _ _ found => Operator.binary_has m.heap found

theorem evalRule (secure : Secure ev ev') (e : Expr) :
    Run.Secure h Heap.Holds (ev.evalRule e) (ev'.evalRule e) := by
  cases e with
  | literal literal => exact pure fun _ _ => by cases literal <;> trivial
  | «variable» id name => exact readRef id name
  | this id keyword => exact readRef id keyword
  | super id keyword method => exact .evalSuper id keyword method
  | function f => exact .evalFunction f
  | grouping e => exact secure.eval e
  | unary operator e => exact (secure.eval e).bind fun v _ _ _ => unary operator v
  | binary left operator right =>
    refine (secure.eval left).bind fun a _ _ _ => (secure.eval right).bind fun b _ _ _ => ?_
    exact binary operator a b
  | logical left operator right =>
    refine (secure.eval left).bind fun a h' _ has => ?_
    by_cases decided : a.isTruthy == operator.is .orKw
    · simp only [decided, if_true]
      exact pure fun _ later => later.has has
    · simp only [decided]
      exact secure.eval right
  | assign id name e =>
    refine (secure.eval e).bind fun v _ _ has => (writeRef id name has).bind fun _ _ later _ => ?_
    exact pure fun _ later' => later'.has (later.has has)
  | call callee paren arguments => exact secure.evalCall callee paren arguments
  | get e name =>
    refine (secure.eval e).bind fun v _ _ has => ?_
    cases v with
    | instanceRef i => exact .property has name
    | _ => exact failAt _ _
  | set object name e =>
    refine (secure.eval object).bind fun v _ _ _ => ?_
    cases v with
    | instanceRef i =>
      refine (secure.eval e).bind fun v _ _ has => (setField i name has).bind fun _ _ later _ => ?_
      exact pure fun _ later' => later'.has (later.has has)
    | _ => exact failAt _ _

theorem evalOptional (secure : Secure ev ev') (e : Option Expr) :
    Run.Secure h Heap.Holds (ev.evalOptional e) (ev'.evalOptional e) := by
  cases e with
  | none => exact pure fun _ _ => trivial
  | some e => exact secure.eval e

theorem execLoop (secure : Secure ev ev') (condition : Expr) (body : Stmt) (n : Nat) :
    Run.Secure h Flow.Known (ev.execLoop condition body n) (ev'.execLoop condition body n) := by
  induction n generalizing h with
  | zero => exact outOfFuel
  | succ n ih =>
    refine (secure.eval condition).bind fun v _ _ _ => ?_
    cases v.isTruthy with
    | false => exact done trivial
    | true =>
      refine (secure.exec body).bind fun flow _ _ known => ?_
      cases flow with
      | normal => exact ih
      | broke => exact done trivial
      | returned v => exact pure fun _ later => later.has known

theorem evalSuperclass (secure : Secure ev ev') (name : Token) (superclass : Option Expr) :
    Run.Secure h (fun parent h' => ∀ c, parent = some c → h'.Has (.classRef c))
      (ev.evalSuperclass name superclass) (ev'.evalSuperclass name superclass) := by
  cases superclass with
  | none => exact pure fun _ _ c absurd => by cases absurd
  | some e =>
    refine (secure.eval e).bind fun v _ _ has => ?_
    cases v with
    | classRef c =>
      refine pure fun _ later c' same => ?_
      cases same
      exact later.has has
    | _ => exact failAt _ _

theorem execClass (secure : Secure ev ev') (name : Token) (superclass : Option Expr)
    (methods : List Function) :
    Run.Secure h Flow.Known (ev.execClass name superclass methods)
      (ev'.execClass name superclass methods) := by
  refine (define name .nil trivial).bind fun _ _ _ _ => ?_
  refine (secure.evalSuperclass name superclass).bind fun parent _ _ above => ?_
  refine (Run.Secure.methodScope above).bind fun scope _ later₁ lt => ?_
  have fresh (h : Heap) : ∀ x id, ({} : Bindings FunctionId).find? x = some id →
      h.Has (.function id) := fun x id found => by cases found
  refine (Run.Secure.methodTable lt methods (fresh _)).bind fun table _ later₂ own => ?_
  have above' := fun p (link : parent = some p) => later₂.has (later₁.has (above p link))
  refine (newClass ⟨name.lexeme, parent, table⟩ above' own).bind fun c _ _ has => ?_
  exact (assignNearest name (.classRef c) has).bind fun _ _ _ _ => done trivial

theorem execRule (secure : Secure ev ev') (s : Stmt) :
    Run.Secure h Flow.Known (ev.execRule s) (ev'.execRule s) := by
  cases s with
  | breakLoop _ => exact done trivial
  | function f => exact .execFunction f
  | expression e => exact (secure.eval e).bind fun _ _ _ _ => done trivial
  | print e =>
    exact (secure.eval e).bind fun v _ _ _ => (print v).bind fun _ _ _ _ => done trivial
  | var name initializer =>
    refine (secure.evalOptional initializer).bind fun v _ _ has => ?_
    exact (define name v has).bind fun _ _ _ _ => done trivial
  | block body =>
    refine currentScope.bind fun outer h' _ lt => ?_
    refine (newScope (Bindings.known_empty h') lt).bind fun scope _ _ lt' => ?_
    exact inScope lt' (secure.sequence body)
  | conditional condition thenBranch elseBranch =>
    refine (secure.eval condition).bind fun v _ _ _ => ?_
    cases v.isTruthy with
    | true => exact secure.exec thenBranch
    | false =>
      cases elseBranch with
      | none => exact done trivial
      | some s => exact secure.exec s
  | loop condition body =>
    change Run.Secure h Flow.Known (ev.execLoop condition body ev.rounds)
      (ev'.execLoop condition body ev'.rounds)
    rw [secure.rounds]
    exact secure.execLoop condition body ev.rounds
  | returnFrom _ value =>
    exact (secure.evalOptional value).map Flow.returned fun _ _ _ later has => later.has has
  | classDecl name superclass methods => exact secure.execClass name superclass methods

theorem rule (secure : Secure ev ev') {t : Task} (known : t.Known h) :
    Run.Secure h t.Answered (ev.rule t) (ev'.rule t) := by
  cases t with
  | expr e => exact secure.evalRule e
  | stmt s => exact secure.execRule s
  | call callee arguments line => exact secure.invokeRule known.1 known.2 line
  | act deed line => exact known.elim

theorem runTopLevel (secure : Secure ev ev') (program : List Stmt) :
    Run.Secure h (fun _ _ => True) (runTopLevel ev program) (runTopLevel ev' program) := by
  induction program generalizing h with
  | nil => exact pure fun _ _ => trivial
  | cons s program ih =>
    refine (secure.exec s).bind fun flow _ _ _ => ?_
    cases flow with
    | normal => exact ih
    | returned _ | broke => exact failInternally _

end Evaluator.Secure

theorem Evaluator.secure_withFuel (n : Nat) : Secure (.withFuel n) (.withFuel n) := by
  induction n with
  | zero =>
    refine ⟨rfl, fun t h _ => ?_⟩
    cases t <;> exact .outOfFuel
  | succ n ih =>
    refine ⟨rfl, fun t h known => ?_⟩
    have same : (withFuel (n + 1)).answer t = (withFuel n).rule t :=
      funext fun m => answer_withFuel_succ n t m
    rw [same]
    exact ih.rule known

section Parts

variable {α : Type} {x : Evaluator → Run α} {K : α → Heap → Prop} {ev : Evaluator} {m : Machine}

theorem ComesTo.secure {m₁ : Machine} {t : Task} (comes : ComesTo x ev m t m₁)
    (secure : ∀ ev', ev.Secure ev' → Run.Secure m.heap K (x ev) (x ev'))
    (answers : ev.Secure ev) (intact : m.Intact) : m₁.Intact ∧ t.Known m₁.heap := by
  -- An answer to any other question is as good as none: the run goes the same way without it.
  by_contra other
  have unfelt (halt : Halt) : ∃ m'', x ev m = .error halt m'' := by
    have cut : ev.Secure (ev.cut t m₁ halt m) := by
      refine ⟨rfl, fun t' h known m' intact' persists => ?_⟩
      have elsewhere : ¬ (t' = t ∧ m' = m₁) := by
        rintro ⟨rfl, rfl⟩
        exact other ⟨intact', known.persists persists⟩
      rw [Evaluator.answer_cut_of_ne elsewhere]
      exact answers.answers t' h known m' intact' persists
    obtain ⟨m'', failed⟩ := comes halt m
    have same := (secure _ cut m intact (.refl _)).2
    exact ⟨m'', same.symm.trans failed⟩
  obtain ⟨m₂, first⟩ := unfelt .outOfFuel
  obtain ⟨m₃, second⟩ := unfelt (.error (.io .sinkFull))
  rw [first] at second
  cases second

theorem Proceeds.intact {m₁ m₂ : Machine} (proceeds : Proceeds x ev m m₁ m₂)
    (secure : ∀ ev', ev.Secure ev' → Run.Secure m.heap K (x ev) (x ev'))
    (answers : ev.Secure ev) (intact : m.Intact) : m₁.Intact ∧ m₂.Intact := by
  have ends : (machineOf (x ev m)).Intact :=
    (secure ev answers m intact (.refl _)).1.leaves.machine intact
  have answered {t : Task} {m' : Machine} (comes : ComesTo x ev m t m') :
      (machineOf (ev.answer t m')).Intact := by
    obtain ⟨intact', known⟩ := comes.secure secure answers intact
    exact (answers.answers t _ known m' intact' (.refl _)).1.leaves.machine intact'
  cases proceeds with
  | whole => exact ⟨intact, ends⟩
  | into comes => exact ⟨intact, (comes.secure secure answers intact).1⟩
  | next first second _ => exact ⟨answered first, (second.secure secure answers intact).1⟩
  | out comes => exact ⟨answered comes, ends⟩

end Parts

end Quill
