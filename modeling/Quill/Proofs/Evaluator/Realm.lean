import Quill.Proofs.Evaluator.Steps
import Quill.Proofs.Resolution.Visit

set_option autoImplicit false

namespace Quill

/-- Errors that only running can bring about. -/
def Error.Dynamic : Error → Prop
  | .runtime .. | .internal _ | .io _ => True
  | _ => False

theorem Heap.definable_dynamic {h : Heap} {s : ScopeId} {name : String} {line : Nat} {e : Error}
    (failed : h.definable s name line = .error e) : e.Dynamic := by
  unfold definable at failed
  split at failed <;> cases failed
  trivial

theorem Evaluator.bindParams_dynamic {params : List Token} {values : List Value}
    {vars : Bindings Value} {e : Error} (failed : bindParams params values vars = .error e) :
    e.Dynamic := by
  induction params, values, vars using bindParams.induct with
  | case1 param params value values vars bound =>
    rw [bindParams, if_pos bound] at failed
    cases failed
    trivial
  | case2 param params value values vars unbound ih =>
    rw [bindParams, if_neg unbound] at failed
    exact ih failed
  | case3 params values vars short =>
    rw [bindParams] at failed
    · cases failed
    · exact short

theorem Error.Ordinary.dynamic {e : Error} (ordinary : e.Ordinary) : e.Dynamic := by
  cases e with
  | runtime | internal | io => trivial
  | _ => exact ordinary

def Expr.parts : Expr → List Piece
  | .literal _ | .variable .. | .this .. | .super .. | .function _ => []
  | .grouping e | .unary _ e | .get e _ | .assign _ _ e => [.expr e]
  | .binary left _ right | .logical left _ right => [.expr left, .expr right]
  | .set object _ value => [.expr object, .expr value]
  | .call callee _ arguments => [.expr callee, .exprs arguments]

def Stmt.parts : Stmt → List Piece
  | .var _ none | .breakLoop _ | .returnFrom _ none | .function _ => []
  | .expression e | .print e | .var _ (some e) | .returnFrom _ (some e) => [.expr e]
  | .block body => [.stmts body]
  | .conditional condition thenBranch none => [.expr condition, .stmt thenBranch]
  | .conditional condition thenBranch (some elseBranch) =>
    [.expr condition, .stmt thenBranch, .stmt elseBranch]
  | .loop condition body => [.expr condition, .stmt body]
  | .classDecl _ none methods => [.functions methods]
  | .classDecl _ (some superclass) methods => [.expr superclass, .functions methods]

def Piece.parts : Piece → List Piece
  | .expr e => e.parts
  | .stmt s => s.parts
  | .exprs (e :: rest) => [.expr e, .exprs rest]
  | .stmts (s :: rest) => [.stmt s, .stmts rest]
  | .functions (_ :: rest) => [.functions rest]
  | .exprs [] | .stmts [] | .functions [] | .function _ => []

/-- Code that may be run, functions that may be called, each with whether it is an initializer,
functions of the host that may be there, and what these may do with the machine. -/
structure Region where
  Code : Piece → Prop
  Callee : Function → Bool → Prop
  Host : Native → Prop
  Act : Deed → Prop
  -- Code comes to its parts, and makes functions of those that are written in it.
  parts : ∀ {p q}, Code p → q ∈ p.parts → Code q
  anonymous : ∀ {f}, Code (.expr (.function f)) → Callee f false
  named : ∀ {f}, Code (.stmt (.function f)) → Callee f false
  method : ∀ {f rest}, Code (.functions (f :: rest)) → Callee f (f.label == initializerName)
  -- A call comes to the body of what is called.
  body : ∀ {f isInitializer}, Callee f isInitializer → Code (.stmts f.body)
  acts : ∀ {native}, Host native → native.Within Act

def Region.all : Region where
  Code _ := True
  Callee _ _ := True
  Host _ := True
  Act _ := True
  parts _ _ := trivial
  anonymous _ := trivial
  named _ := trivial
  method _ := trivial
  body _ := trivial
  acts _ _ _ _ _ := trivial

def Region.Quiet (R : Region) : Prop :=
  ∀ deed, ¬ R.Act deed

namespace Region

structure Holds (R : Region) (h : Heap) : Prop where
  closures : ∀ (id : FunctionId) closure, h.closures[id]? = some closure →
    R.Callee closure.code closure.isInitializer
  natives : ∀ (id : NativeId) native, h.natives[id]? = some native → R.Host native

theorem all_holds (h : Heap) : all.Holds h :=
  ⟨fun _ _ _ => trivial, fun _ _ _ => trivial⟩

theorem Holds.congr {R : Region} {h h' : Heap} (holds : R.Holds h)
    (same : h'.closures = h.closures ∧ h'.natives = h.natives) : R.Holds h' := by
  refine ⟨fun id closure found => ?_, fun id native found => ?_⟩
  · rw [same.1] at found
    exact holds.closures id closure found
  · rw [same.2] at found
    exact holds.natives id native found

theorem Holds.addClosure {R : Region} {h : Heap} (holds : R.Holds h) {closure : Closure}
    (callee : R.Callee closure.code closure.isInitializer) : R.Holds (h.addClosure closure) := by
  refine ⟨fun id closure' found => ?_, holds.natives⟩
  rcases Heap.getElem?_push_cases found with old | ⟨-, rfl⟩
  · exact holds.closures id closure' old
  · exact callee

theorem Holds.addNative {R : Region} {h : Heap} (holds : R.Holds h) {native : Native}
    (host : R.Host native) : R.Holds (h.addNative native) := by
  refine ⟨holds.closures, fun id native' found => ?_⟩
  rcases Heap.getElem?_push_cases found with old | ⟨-, rfl⟩
  · exact holds.natives id native' old
  · exact host

theorem Holds.hosts {R : Region} {h : Heap} (holds : R.Holds h) : h.Hosts R.Act := by
  intro native mem
  obtain ⟨id, found⟩ := Array.mem_iff_getElem?.mp mem
  exact R.acts (holds.natives id native found)

theorem Holds.discreet {R : Region} {h : Heap} (holds : R.Holds h) (quiet : R.Quiet) :
    h.Discreet :=
  fun native mem arguments line deed reply =>
    quiet deed (holds.hosts native mem arguments line deed reply)

def Task (R : Region) : Quill.Task → Prop
  | .expr e => R.Code (.expr e)
  | .stmt s => R.Code (.stmt s)
  | .call .. => True
  | .act deed _ => R.Act deed

theorem Task.own {R : Region} {t : Quill.Task} (within : R.Task t) (quiet : R.Quiet) : t.Own := by
  cases t with
  | act => exact quiet _ within
  | _ => trivial

end Region

def Deed.Stays (R : Region) (Fault : Error → Prop) : Deed → Prop
  | .done result => ∀ e, result = .error e → Fault e
  | .change f next => (∀ m : Machine, R.Holds m.heap → R.Holds (m.leftAs (f m.view)).heap) ∧
      ∀ view, (next view).Stays R Fault
  | .add name arity respond next =>
    R.Host ⟨name, arity, fun arguments line => .act (respond arguments line)⟩ ∧
      ∀ id, (next id).Stays R Fault
  | .call _ _ next => ∀ result, (∀ e, result = .error e → Fault e) → (next result).Stays R Fault
  | .execute s next => R.Code (.stmt s) ∧
      ∀ result, (∀ e, result = .error e → Fault e) → (next result).Stays R Fault
  | .evaluate e next => R.Code (.expr e) ∧
      ∀ result, (∀ e, result = .error e → Fault e) → (next result).Stays R Fault

/-- What a function of the host does neither changes what is recorded about references nor depends on
it, and makes functions only of code that it runs. -/
def Deed.Blind : Deed → Prop
  | .done _ => True
  | .change f next =>
    (∀ v table, f { v with distances := table } = { f v with distances := table }) ∧
      (∀ v table, next { v with distances := table } = next v) ∧
      (∀ v, ∀ made ∈ (f v).closures, ∃ old ∈ v.closures, made.code = old.code) ∧
      ∀ v, (next v).Blind
  | .add _ _ respond next =>
    (∀ arguments line, (respond arguments line).Blind) ∧ ∀ id, (next id).Blind
  | .call _ _ next | .execute _ next | .evaluate _ next => ∀ result, (next result).Blind

def Region.Blind (R : Region) : Prop :=
  ∀ deed, R.Act deed → deed.Blind

theorem Region.Quiet.blind {R : Region} (quiet : R.Quiet) : R.Blind :=
  fun deed act => (quiet deed act).elim

/-- A region with the references that may be looked up and the errors that may arise. -/
structure Realm extends Region where
  Ref : RefId → Prop
  Fault : Error → Prop
  refs : ∀ {p id}, Code p → id ∈ p.ids → Ref id
  -- Running may fail in any way of its own, and as the host does.
  dynamic : ∀ {e : Error}, e.Dynamic → Fault e
  host : ∀ {native arguments line e}, Host native → native.respond arguments line = .error e →
    Fault e
  stays : ∀ {deed}, Act deed → deed.Stays toRegion Fault

def Realm.whole : Realm where
  Code _ := True
  Callee _ _ := True
  Host := Native.Discreet
  Act _ := False
  Ref _ := True
  Fault _ := True
  parts _ _ := trivial
  anonymous _ := trivial
  named _ := trivial
  method _ := trivial
  body _ := trivial
  acts discreet := discreet
  refs _ _ := trivial
  dynamic _ := trivial
  host _ _ := trivial
  stays act := act.elim

theorem Realm.whole_quiet : Realm.whole.Quiet :=
  fun _ => id

namespace Realm

theorem whole_holds {h : Heap} (discreet : h.Discreet) : whole.Holds h :=
  ⟨fun _ _ _ => trivial, fun _ _ found => discreet.found found⟩

def Agree (R : Realm) (table table' : Distances) : Prop :=
  ∀ id, R.Ref id → table'[id]? = table[id]?

end Realm

namespace Machine

structure Restored (m m' : Machine) : Prop where
  globals : m'.globals = m.globals
  scope : m'.scope = m.scope
  distances : m'.distances = m.distances
  depth : m'.depth = m.depth
  maxDepth : m'.maxDepth = m.maxDepth
  limit : m'.sink.limit = m.sink.limit
  flush : m'.sink.flushFails = m.sink.flushFails
  functions : ∀ (id : FunctionId) closure, m.heap.closures[id]? = some closure →
    m'.heap.closures[id]? = some closure

theorem Restored.refl (m : Machine) : m.Restored m :=
  ⟨rfl, rfl, rfl, rfl, rfl, rfl, rfl, fun _ _ found => found⟩

theorem Restored.trans {m m' m'' : Machine} (first : m.Restored m') (second : m'.Restored m'') :
    m.Restored m'' :=
  ⟨second.globals.trans first.globals, second.scope.trans first.scope,
    second.distances.trans first.distances, second.depth.trans first.depth,
    second.maxDepth.trans first.maxDepth, second.limit.trans first.limit,
    second.flush.trans first.flush,
    fun id closure found => second.functions id closure (first.functions id closure found)⟩

theorem Restored.of_heap (m : Machine) {h : Heap} (same : h.closures = m.heap.closures) :
    m.Restored { m with heap := h } := by
  refine ⟨rfl, rfl, rfl, rfl, rfl, rfl, rfl, fun id closure found => ?_⟩
  change h.closures[id]? = _
  rw [same]
  exact found

def withTable (m : Machine) (table : Distances) : Machine :=
  { m with distances := table }

end Machine

def withTable {α : Type} (table : Distances) :
    EStateM.Result Halt Machine α → EStateM.Result Halt Machine α
  | .ok a m => .ok a (m.withTable table)
  | .error halt m => .error halt (m.withTable table)

structure Machine.Returns (R : Region) (m m' : Machine) : Prop where
  restored : R.Quiet → m.Restored m'
  distances : R.Blind → m'.distances = m.distances

namespace Machine.Restored

variable {m m' : Machine}

theorem returns {R : Region} (restored : m.Restored m') : m.Returns R m' :=
  ⟨fun _ => restored, fun _ => restored.distances⟩

end Machine.Restored

theorem Machine.Returns.refl (R : Region) (m : Machine) : m.Returns R m :=
  (Machine.Restored.refl m).returns

theorem Machine.Returns.trans {R : Region} {m m' m'' : Machine} (first : m.Returns R m')
    (second : m'.Returns R m'') : m.Returns R m'' :=
  ⟨fun quiet => (first.restored quiet).trans (second.restored quiet),
    fun blind => (second.distances blind).trans (first.distances blind)⟩

/-- Two runs do nothing that the realm does not allow, and are the same within it, whatever the tables
say of references outside it, if the host does not know of the tables. -/
structure Run.Lawful (R : Realm) {α : Type} (x y : Run α) : Prop where
  holds : ∀ m : Machine, R.Holds m.heap → R.Holds (machineOf (x m)).heap
  returns : ∀ m : Machine, R.Holds m.heap → m.Returns R.toRegion (machineOf (x m))
  fault : ∀ (m : Machine) e m', R.Holds m.heap → x m = .error (.error e) m' → R.Fault e
  same : R.Blind → ∀ (m : Machine) table, R.Holds m.heap → R.Agree m.distances table →
    y (m.withTable table) = withTable table (x m)

theorem Run.Lawful.restored {R : Realm} {α : Type} {x y : Run α} (lawful : Run.Lawful R x y)
    (quiet : R.Quiet) (m : Machine) (here : R.Holds m.heap) : m.Restored (machineOf (x m)) :=
  (lawful.returns m here).restored quiet

theorem Run.slotOf_withTable (m : Machine) {table : Distances} {id : RefId} (name : Token)
    (same : table[id]? = m.distances[id]?) : slotOf (m.withTable table) id name = slotOf m id name := by
  unfold slotOf Machine.withTable
  rw [same]

namespace Run.Lawful

variable {R : Realm} {α β : Type} {x y : Run α}

theorem of_restored (holds : ∀ m : Machine, R.Holds m.heap → R.Holds (machineOf (x m)).heap)
    (restored : ∀ m : Machine, m.Restored (machineOf (x m)))
    (fault : ∀ m e m', x m = .error (.error e) m' → e.Dynamic)
    (same : ∀ (m : Machine) table, R.Agree m.distances table → x (m.withTable table) = withTable table (x m)) :
    Lawful R x x :=
  ⟨holds, fun m _ => (restored m).returns, fun m e m' _ failed => R.dynamic (fault m e m' failed),
    fun _ m table _ => same m table⟩

theorem of_heap (value : Machine → α) (heap : Machine → Heap)
    (step : ∀ m, x m = .ok (value m) { m with heap := heap m })
    (same : ∀ m : Machine,
      (heap m).closures = m.heap.closures ∧ (heap m).natives = m.heap.natives)
    (free : ∀ (m : Machine) table,
      value (m.withTable table) = value m ∧ heap (m.withTable table) = heap m) :
    Lawful R x x := by
  refine of_restored (fun m here => ?_) (fun m => ?_) (fun m e m' failed => ?_) fun m table _ => ?_
  · rw [step]
    exact here.congr (same m)
  · rw [step]
    exact .of_heap m (same m).1
  · rw [step] at failed
    cases failed
  · rw [step, step, (free m table).1, (free m table).2]
    rfl

theorem pure (a : α) : Lawful R (Pure.pure a : Run α) (Pure.pure a) :=
  of_heap (fun _ => a) (·.heap) (fun _ => rfl) (fun _ => ⟨rfl, rfl⟩) fun _ _ => ⟨rfl, rfl⟩

theorem currentScope : Lawful R Run.currentScope Run.currentScope :=
  of_heap (·.scope) (·.heap) (fun _ => rfl) (fun _ => ⟨rfl, rfl⟩) fun _ _ => ⟨rfl, rfl⟩

theorem newScope (vars : Bindings Value) (parent : ScopeId) :
    Lawful R (Run.newScope vars parent) (Run.newScope vars parent) :=
  of_heap (·.heap.scopes.size) (·.heap.addScope ⟨vars, some parent⟩) (fun _ => rfl)
    (fun _ => ⟨rfl, rfl⟩) fun _ _ => ⟨rfl, rfl⟩

theorem newClass (c : Class) : Lawful R (Run.newClass c) (Run.newClass c) :=
  of_heap (·.heap.classes.size) (·.heap.addClass c) (fun _ => rfl)
    (fun _ => ⟨rfl, rfl⟩) fun _ _ => ⟨rfl, rfl⟩

theorem newInstance (c : ClassId) : Lawful R (Run.newInstance c) (Run.newInstance c) :=
  of_heap (·.heap.instances.size) (·.heap.addInstance ⟨c, {}⟩) (fun _ => rfl)
    (fun _ => ⟨rfl, rfl⟩) fun _ _ => ⟨rfl, rfl⟩

theorem setField (i : InstanceId) (name : Token) (value : Value) :
    Lawful R (Run.setField i name value) (Run.setField i name value) :=
  of_heap (fun _ => ()) (·.heap.setField i name.lexeme value) (fun _ => rfl)
    (fun _ => ⟨rfl, rfl⟩) fun _ _ => ⟨rfl, rfl⟩

theorem newClosure {closure : Closure} (callee : R.Callee closure.code closure.isInitializer) :
    Lawful R (Run.newClosure closure) (Run.newClosure closure) := by
  refine of_restored (fun m here => here.addClosure callee) (fun m => ?_)
    (fun m e m' failed => by cases failed) fun m table _ => rfl
  refine ⟨rfl, rfl, rfl, rfl, rfl, rfl, rfl, fun id closure' found => ?_⟩
  exact Heap.getElem?_push_old found

theorem fail {e : Error} (fault : R.Fault e) : Lawful R (Run.fail e : Run α) (Run.fail e) := by
  refine ⟨fun m here => here, fun m _ => .refl _ m, fun m e' m' _ failed => ?_,
    fun _ m table _ _ => rfl⟩
  cases failed
  exact fault

theorem failAt (line : Nat) (cause : RuntimeFault) :
    Lawful R (Run.failAt line cause : Run α) (Run.failAt line cause) :=
  fail (R.dynamic trivial)

theorem failInternally (cause : InternalFault) :
    Lawful R (Run.failInternally cause : Run α) (Run.failInternally cause) :=
  fail (R.dynamic trivial)

theorem outOfFuel : Lawful R (Run.outOfFuel : Run α) Run.outOfFuel := by
  refine ⟨fun m here => here, fun m _ => .refl _ m, fun m e m' _ failed => ?_,
    fun _ m table _ _ => rfl⟩
  cases failed

theorem ask {f : Machine → Except Error α} (fault : ∀ m e, f m = .error e → e.Dynamic)
    (free : ∀ m table, R.Agree m.distances table → f (m.withTable table) = f m) :
    Lawful R (Run.ask f) (Run.ask f) := by
  refine of_restored (fun m here => ?_) (fun m => ?_) (fun m e m' failed => ?_)
    fun m table agree => ?_
  · unfold Run.ask
    cases f m <;> exact here
  · unfold Run.ask
    cases f m <;> exact .refl m
  · unfold Run.ask at failed
    cases result : f m with
    | ok a =>
      rw [result] at failed
      cases failed
    | error e' =>
      rw [result] at failed
      cases failed
      exact fault m e result
  · unfold Run.ask
    rw [free m table agree]
    cases f m <;> rfl

theorem askOk (f : Machine → α) (free : ∀ m table, f (m.withTable table) = f m) :
    Lawful R (Run.ask fun m => .ok (f m)) (Run.ask fun m => .ok (f m)) :=
  ask (fun _ _ failed => by cases failed) fun m table _ => congrArg Except.ok (free m table)

theorem bind_of {P : α → Prop} {f g : α → Run β} (first : Lawful R x y)
    (results : ∀ m a m', R.Holds m.heap → x m = .ok a m' → P a)
    (next : ∀ a, P a → Lawful R (f a) (g a)) : Lawful R (x >>= f) (y >>= g) := by
  refine ⟨fun m here => ?_, fun m here => ?_, fun m e m' here failed => ?_,
    fun blind m table here agree => ?_⟩
  · have held := first.holds m here
    rw [bind_eq_match]
    cases result : x m with
    | ok a m' =>
      rw [result] at held
      exact (next a (results m a m' here result)).holds m' held
    | error halt m' =>
      rw [result] at held
      exact held
  · have held := first.holds m here
    have back := first.returns m here
    rw [bind_eq_match]
    cases result : x m with
    | ok a m' =>
      rw [result] at held back
      exact back.trans ((next a (results m a m' here result)).returns m' held)
    | error halt m' =>
      rw [result] at back
      exact back
  · have held := first.holds m here
    rw [bind_eq_match] at failed
    cases result : x m with
    | ok a m₁ =>
      rw [result] at held failed
      exact (next a (results m a m₁ here result)).fault m₁ e m' held failed
    | error halt m₁ =>
      rw [result] at failed
      cases failed
      exact first.fault m e m' here result
  · have held := first.holds m here
    have back := (first.returns m here).distances blind
    rw [bind_eq_match, bind_eq_match, first.same blind m table here agree]
    cases result : x m with
    | ok a m' =>
      rw [result] at held back
      -- The first run has left its table as it was, so the tables still agree after it.
      have tables : m'.distances = m.distances := back
      refine (next a (results m a m' here result)).same blind m' table held fun id ref => ?_
      rw [agree id ref, tables]
    | error halt m' => rfl

theorem bind {f g : α → Run β} (first : Lawful R x y) (next : ∀ a, Lawful R (f a) (g a)) :
    Lawful R (x >>= f) (y >>= g) :=
  first.bind_of (P := fun _ => True) (fun _ _ _ _ _ => trivial) fun a _ => next a

theorem map (f : α → β) (first : Lawful R x y) : Lawful R (f <$> x) (f <$> y) := by
  rw [map_eq_pure_bind, map_eq_pure_bind]
  exact first.bind fun a => pure (f a)

theorem borrowing {enter : Machine → Machine} {leave : Machine → Machine → Machine}
    (inner : Lawful R x y) (entered : ∀ m, (enter m).heap = m.heap)
    (left : ∀ m m', (leave m m').heap = m'.heap ∧ (leave m m').distances = m'.distances)
    (back : ∀ m m', (enter m).Restored m' → m.Restored (leave m m'))
    (free : ∀ m table, enter (m.withTable table) = (enter m).withTable table ∧
      (enter m).distances = m.distances ∧
      ∀ m' : Machine, leave (m.withTable table) (m'.withTable table) = (leave m m').withTable table) :
    Lawful R (Run.borrowing enter leave x) (Run.borrowing enter leave y) := by
  refine ⟨fun m here => ?_, fun m here => ?_, fun m e m' here failed => ?_,
    fun blind m table here agree => ?_⟩ <;> rw [← entered m] at here
  · have held := inner.holds (enter m) here
    unfold Run.borrowing
    cases result : x (enter m) with
    | ok _ m' | error _ m' =>
      rw [result] at held
      change R.Holds (leave m m').heap
      rw [(left m m').1]
      exact held
  · have returns := inner.returns (enter m) here
    have table : (enter m).distances = m.distances := (free m m.distances).2.1
    unfold Run.borrowing
    cases result : x (enter m) with
    | ok _ m' | error _ m' =>
      rw [result] at returns
      exact ⟨fun quiet => back m m' (returns.restored quiet),
        fun blind => ((left m m').2.trans (returns.distances blind)).trans table⟩
  · unfold Run.borrowing at failed
    cases result : x (enter m) with
    | ok a m₁ =>
      rw [result] at failed
      cases failed
    | error halt m₁ =>
      rw [result] at failed
      cases failed
      exact inner.fault (enter m) e m₁ here result
  -- Entering and leaving do not look at the table, so the inner runs start and end alike.
  · obtain ⟨enters, distances, leaves⟩ := free m table
    have same := inner.same blind (enter m) table here fun id ref => by rw [distances, agree id ref]
    unfold Run.borrowing
    rw [enters, same]
    cases x (enter m) with
    | ok a m' => exact congrArg (EStateM.Result.ok a) (leaves m')
    | error halt m' => exact congrArg (EStateM.Result.error halt) (leaves m')

theorem inScope (s : ScopeId) (inner : Lawful R x y) :
    Lawful R (Run.inScope s x) (Run.inScope s y) := by
  rw [inScope_eq, inScope_eq]
  exact inner.borrowing (fun _ => rfl) (fun _ _ => ⟨rfl, rfl⟩)
    (fun _ _ back => { back with scope := rfl })
    fun _ _ => ⟨rfl, rfl, fun _ => rfl⟩

theorem oneDeeper (line : Nat) (inner : Lawful R x y) :
    Lawful R (Run.oneDeeper line x) (Run.oneDeeper line y) := by
  rw [oneDeeper_eq, oneDeeper_eq]
  refine bind (ask (fun m e failed => ?_) fun _ _ _ => rfl) fun _ => ?_
  · split at failed <;> cases failed
    trivial
  · exact inner.borrowing (fun _ => rfl) (fun _ _ => ⟨rfl, rfl⟩)
      (fun _ _ back => { back with depth := rfl }) fun _ _ => ⟨rfl, rfl, fun _ => rfl⟩

theorem object_bind_eq (p : Heap → Option α) (f : α → Run β) (m : Machine) :
    (Run.object p >>= f) m =
      match p m.heap with
      | some a => f a m
      | none => .error (.error (.internal .dangling)) m := by
  rw [bind_eq_match]
  unfold Run.object
  cases p m.heap <;> rfl

theorem object_bind {p : Heap → Option α} {f g : α → Run β}
    (next : ∀ h a, R.Holds h → p h = some a → Lawful R (f a) (g a)) :
    Lawful R (Run.object p >>= f) (Run.object p >>= g) := by
  refine ⟨fun m here => ?_, fun m here => ?_, fun m e m' here failed => ?_,
    fun blind m table here agree => ?_⟩
  · rw [object_bind_eq]
    cases found : p m.heap with
    | none => exact here
    | some a => exact (next m.heap a here found).holds m here
  · rw [object_bind_eq]
    cases found : p m.heap with
    | none => exact .refl _ m
    | some a => exact (next m.heap a here found).returns m here
  · rw [object_bind_eq] at failed
    cases found : p m.heap with
    | none =>
      rw [found] at failed
      cases failed
      exact R.dynamic trivial
    | some a =>
      rw [found] at failed
      exact (next m.heap a here found).fault m e m' here failed
  · have same : (m.withTable table).heap = m.heap := rfl
    rw [object_bind_eq, object_bind_eq, same]
    cases found : p m.heap with
    | none => rfl
    | some a => exact (next m.heap a here found).same blind m table here agree

theorem of_lookup {γ : Type} (lookup : Machine → Except Error γ) (value : γ → α)
    (heap : Machine → γ → Heap)
    (step : ∀ m, x m = match lookup m with
      | .error e => .error (.error e) m
      | .ok a => .ok (value a) { m with heap := heap m a })
    (same : ∀ (m : Machine) a,
      (heap m a).closures = m.heap.closures ∧ (heap m a).natives = m.heap.natives)
    (fault : ∀ m e, lookup m = .error e → e.Dynamic)
    (free : ∀ (m : Machine) table, R.Agree m.distances table →
      lookup (m.withTable table) = lookup m ∧ heap (m.withTable table) = heap m) :
    Lawful R x x := by
  refine of_restored (fun m here => ?_) (fun m => ?_) (fun m e m' failed => ?_)
    fun m table agree => ?_
  · rw [step]
    cases lookup m with
    | error e => exact here
    | ok a => exact here.congr (same m a)
  · rw [step]
    cases lookup m with
    | error e => exact .refl m
    | ok a => exact .of_heap m (same m a).1
  · rw [step] at failed
    cases result : lookup m with
    | error e' =>
      rw [result] at failed
      cases failed
      exact fault m e result
    | ok a =>
      rw [result] at failed
      cases failed
  · rw [step, step, (free m table agree).1, (free m table agree).2]
    cases lookup m <;> rfl

theorem define (name : Token) (value : Value) :
    Lawful R (Run.define name value) (Run.define name value) := by
  refine of_lookup (fun m => m.heap.definable m.scope name.lexeme name.line) id
    (fun m _ => m.heap.write m.scope name.lexeme value) (fun m => ?_)
    (fun _ _ => ⟨rfl, rfl⟩) (fun _ _ => Heap.definable_dynamic)
    fun _ _ _ => ⟨rfl, rfl⟩
  unfold Run.define
  cases m.heap.definable m.scope name.lexeme name.line <;> rfl

theorem assignNearest (name : Token) (value : Value) :
    Lawful R (Run.assignNearest name value) (Run.assignNearest name value) := by
  refine of_lookup (fun m => m.heap.slot m.scope name.lexeme name.line) (fun _ => ())
    (fun m slot => m.heap.write slot.scope name.lexeme value) (fun m => ?_)
    (fun _ _ => ⟨rfl, rfl⟩) (fun _ _ failed => (Heap.slot_ordinary failed).dynamic)
    fun _ _ _ => ⟨rfl, rfl⟩
  unfold Run.assignNearest
  cases m.heap.slot m.scope name.lexeme name.line <;> rfl

theorem readRef {id : RefId} (ref : R.Ref id) (name : Token) :
    Lawful R (Run.readRef id name) (Run.readRef id name) := by
  refine of_lookup (fun m => slotOf m id name) Slot.value (fun m _ => m.heap) (fun m => ?_)
    (fun _ _ => ⟨rfl, rfl⟩) (fun _ _ failed => (slotOf_ordinary failed).dynamic)
    fun m _ agree => ⟨slotOf_withTable m name (agree id ref), rfl⟩
  unfold Run.readRef
  cases slotOf m id name <;> rfl

theorem writeRef {id : RefId} (ref : R.Ref id) (name : Token) (value : Value) :
    Lawful R (Run.writeRef id name value) (Run.writeRef id name value) := by
  refine of_lookup (fun m => slotOf m id name) (fun _ => ())
    (fun m slot => m.heap.write slot.scope name.lexeme value) (fun m => ?_)
    (fun _ _ => ⟨rfl, rfl⟩) (fun _ _ failed => (slotOf_ordinary failed).dynamic)
    fun m _ agree => ⟨slotOf_withTable m name (agree id ref), rfl⟩
  unfold Run.writeRef
  cases slotOf m id name <;> rfl

theorem readClock : Lawful R Run.readClock Run.readClock :=
  of_restored (fun _ here => here) (fun m => { Machine.Restored.refl m with })
    (fun _ _ _ failed => by cases failed) fun _ _ _ => rfl

theorem print (value : Value) : Lawful R (Run.print value) (Run.print value) := by
  have run (m : Machine) : Run.print value m =
      let bytes := (m.heap.display value ++ "\n").toUTF8
      if m.sink.accepts bytes.size == bytes.size then .ok () { m with sink := m.sink.write bytes }
      else .error (.error (.io .sinkFull)) { m with sink := m.sink.write bytes } := rfl
  refine of_restored (fun m here => ?_) (fun m => ?_) (fun m e m' failed => ?_) fun m table _ => ?_
  · rw [run]
    dsimp only
    split <;> exact here
  · rw [run]
    dsimp only
    split <;> exact { Machine.Restored.refl m with }
  · rw [run] at failed
    dsimp only at failed
    split at failed <;> cases failed
    trivial
  · rw [run, run]
    dsimp only [Machine.withTable]
    rw [apply_ite (withTable table)]
    rfl

theorem newNative {native : Native} (host : R.Host native) :
    Lawful R (Run.newNative native) (Run.newNative native) := by
  refine of_restored (fun m here => here.addNative host)
    (fun m => .of_heap m rfl) (fun _ _ _ failed => by cases failed) fun _ _ _ => rfl

theorem attempt_bind {f g : Except Error α → Run β} (inner : Lawful R x y)
    (next : ∀ result, (∀ e, result = .error e → R.Fault e) → Lawful R (f result) (g result)) :
    Lawful R (Run.attempt x >>= f) (Run.attempt y >>= g) := by
  -- What is attempted does not fail itself: an error of it comes back as its result.
  have attempted : Lawful R (Run.attempt x) (Run.attempt y) := by
    refine ⟨fun m here => ?_, fun m here => ?_, fun m e m' here failed => ?_,
      fun blind m table here agree => ?_⟩
    · have held := inner.holds m here
      unfold Run.attempt
      cases result : x m with
      | ok a m' =>
        rw [result] at held
        exact held
      | error halt m' =>
        rw [result] at held
        cases halt <;> exact held
    · have back := inner.returns m here
      unfold Run.attempt
      cases result : x m with
      | ok a m' =>
        rw [result] at back
        exact back
      | error halt m' =>
        rw [result] at back
        cases halt <;> exact back
    · unfold Run.attempt at failed
      split at failed <;> cases failed
    · unfold Run.attempt
      rw [inner.same blind m table here agree]
      cases x m with
      | ok a m' => rfl
      | error halt m' => cases halt <;> rfl
  -- So the errors to go on with are those that the realm allows.
  refine attempted.bind_of (fun m result m' here done => ?_) next
  rintro e rfl
  unfold Run.attempt at done
  cases result : x m with
  | ok a m₁ =>
    rw [result] at done
    cases done
  | error halt m₁ =>
    rw [result] at done
    cases halt with
    | outOfFuel => cases done
    | error e' =>
      cases done
      exact inner.fault m e m' here result

theorem change_bind {change : View → View} {f g : View → Run β} (loud : ¬ R.Quiet)
    (holds : ∀ m : Machine, R.Holds m.heap → R.Holds (m.leftAs (change m.view)).heap)
    (unseen : R.Blind → ∀ v table,
      change { v with distances := table } = { change v with distances := table } ∧
        g { v with distances := table } = g v)
    (next : ∀ view, Lawful R (f view) (g view)) :
    Lawful R (Run.change change >>= f) (Run.change change >>= g) := by
  have first (h : View → Run β) (m : Machine) : (Run.change change >>= h) m =
      h (change m.view) (m.leftAs (change m.view)) := rfl
  -- Where the machine is put back to the table it had, it is as if it had never had another one.
  have table (blind : R.Blind) (m : Machine) :
      (m.leftAs (change m.view)).distances = m.distances := by
    have same := (unseen blind m.view m.distances).1
    exact congrArg View.distances same
  refine ⟨fun m here => ?_, fun m here => ?_, fun m e m' here failed => ?_,
    fun blind m table' here agree => ?_⟩
  · rw [first]
    exact (next _).holds _ (holds m here)
  · rw [first]
    refine ⟨fun quiet => (loud quiet).elim, fun blind => ?_⟩
    exact (((next _).returns _ (holds m here)).distances blind).trans (table blind m)
  · rw [first] at failed
    exact (next _).fault _ e m' (holds m here) failed
  · obtain ⟨changed, seen⟩ := unseen blind m.view table'
    have left : (m.withTable table').leftAs (change (m.withTable table').view) =
        (m.leftAs (change m.view)).withTable table' := by
      change (m.withTable table').leftAs (change { m.view with distances := table' }) = _
      rw [changed]
      rfl
    have asked : g (change (m.withTable table').view) = g (change m.view) := by
      change g (change { m.view with distances := table' }) = _
      rw [changed]
      exact (unseen blind _ table').2
    rw [first, first, left, asked]
    refine (next _).same blind _ table' (holds m here) fun id ref => ?_
    rw [agree id ref, table blind m]

end Run.Lawful

end Quill
