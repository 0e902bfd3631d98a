import Quill.Proofs.Evaluator.Relay
import Quill.Proofs.Heap.Gains
import Quill.Proofs.Resolution.Sites

set_option autoImplicit false

namespace Quill

/-- The names a statement declares in the scope it stands in. -/
def Stmt.names (s : Stmt) : List String :=
  s.declarations.map Token.lexeme

def namesOf (body : List Stmt) : List String :=
  (declarationsOf body).map Token.lexeme

theorem namesOf_cons (s : Stmt) (body : List Stmt) :
    namesOf (s :: body) = s.names ++ namesOf body := by
  simp [namesOf, declarationsOf, Stmt.names]

def Task.names : Task → List String
  | .stmt s => s.names
  | .expr _ | .call .. | .act .. => []

def Error.isRedefinition : Error → Bool
  | .runtime (.redefined _) _ => true
  | _ => false

structure Region.Distinct (R : Region) : Prop where
  block : ∀ {body}, R.Code (.stmt (.block body)) → (namesOf body).Nodup
  callee : ∀ {f isInitializer}, R.Callee f isInitializer →
    (f.params.map Token.lexeme ++ namesOf f.body).Nodup
  loop : ∀ {condition body}, R.Code (.stmt (.loop condition body)) → body.names = []
  host : ∀ {native arguments line e}, R.Host native → native.respond arguments line = .error e →
    e.isRedefinition = false
  quiet : R.Quiet

theorem Realm.whole_not_distinct : ¬ Realm.whole.Distinct := by
  intro distinct
  have none : (Stmt.var ⟨.symbol .eof, "", 0⟩ none).names = [] :=
    @distinct.loop (.literal .nil) _ trivial
  cases none

theorem Run.binds_of_slotOf {m : Machine} {id : RefId} {name : Token} {slot : Slot}
    (found : slotOf m id name = .ok slot) : m.heap.Binds slot.scope name.lexeme := by
  unfold slotOf at found
  split at found
  · exact Heap.binds_of_slotAt found
  · exact Heap.binds_of_slot found

theorem Error.Ordinary.noRedefinition {e : Error} (ordinary : e.Ordinary) :
    e.isRedefinition = false := by
  unfold isRedefinition
  split
  next name _ => exact absurd rfl (ordinary name)
  next => rfl

theorem Evaluator.bindParams_distinct {params : List Token} {values : List Value}
    {vars : Bindings Value} (distinct : (params.map Token.lexeme).Nodup)
    (free : ∀ p ∈ params, vars.find? p.lexeme = none) :
    ∃ vars', bindParams params values vars = .ok vars' ∧
      ∀ x, x ∉ params.map Token.lexeme → vars'.find? x = vars.find? x := by
  induction params, values, vars using bindParams.induct with
  | case1 param params value values vars bound =>
    obtain ⟨v, found⟩ := Option.isSome_iff_exists.mp bound
    rw [free param List.mem_cons_self] at found
    cases found
  | case2 param params value values vars unbound ih =>
    rw [List.map_cons, List.nodup_cons] at distinct
    have other (x : String) (ne : x ≠ param.lexeme) :
        (vars.insert param.lexeme value).find? x = vars.find? x := by
      rw [Bindings.find?_insert, if_neg ne]
    obtain ⟨vars', bound, same⟩ := ih distinct.2 fun p mem => by
      rw [other p.lexeme fun same => distinct.1 (same ▸ List.mem_map_of_mem mem)]
      exact free p (List.mem_cons_of_mem _ mem)
    refine ⟨vars', ?_, fun x fresh => ?_⟩
    · rw [bindParams, if_neg unbound]
      exact bound
    · rw [List.map_cons, List.mem_cons, not_or] at fresh
      rw [same x fresh.2, other x fresh.1]
  | case3 params values vars short =>
    refine ⟨vars, ?_, fun _ _ => rfl⟩
    rw [bindParams]
    exact short

def Evaluator.buildClass (name : Token) (parent : Option ClassId) (methods : List Function) :
    Run Flow := do
  let scope ← methodScope parent
  let table ← methodTable scope methods {}
  let c ← Run.newClass ⟨name.lexeme, parent, table⟩
  Run.assignNearest name (.classRef c)
  pure .normal

theorem Evaluator.execClass_eq (ev : Evaluator) (name : Token) (superclass : Option Expr)
    (methods : List Function) : ev.execClass name superclass methods =
      Run.define name .nil >>= fun _ => ev.evalSuperclass name superclass >>= fun parent =>
        buildClass name parent methods :=
  rfl

def Halt.isRedefinition : Halt → Bool
  | .error e => e.isRedefinition
  | .outOfFuel => false

/-- A run ends because a name was refused. -/
def refuses {α : Type} : EStateM.Result Halt Machine α → Bool
  | .error halt _ => halt.isRedefinition
  | .ok _ _ => false

/-- What comes of a machine within a region: at most some names are added to its scope, and none to
others that are there before. If names are distinct and none of these is bound, none is refused. -/
structure Machine.Confines (R : Region) (names : List String) (m : Machine) {α : Type}
    (result : EStateM.Result Halt Machine α) : Prop where
  holds : R.Holds (machineOf result).heap
  scope : (machineOf result).scope = m.scope
  frames : m.heap.Frames m.scope names (machineOf result).heap
  gains : R.Quiet → m.heap.Gains m.scope names (machineOf result).heap
  distinct : R.Distinct → m.heap.Free m.scope names → refuses result = false

def Run.Confined (R : Region) (names : List String) {α : Type} (x : Run α) : Prop :=
  ∀ m : Machine, R.Holds m.heap → m.Confines R names (x m)

namespace Machine.Confines

variable {R : Region} {α β : Type} {a b names : List String} {m m₁ : Machine}
  {result : EStateM.Result Halt Machine α}

theorem of_gains (holds : R.Holds (machineOf result).heap)
    (scope : (machineOf result).scope = m.scope)
    (gains : m.heap.Gains m.scope names (machineOf result).heap)
    (distinct : R.Distinct → m.heap.Free m.scope names → refuses result = false) :
    m.Confines R names result :=
  ⟨holds, scope, gains.toFrames, fun _ => gains, distinct⟩

theorem mono (confines : m.Confines R a result) (sub : a ⊆ b) : m.Confines R b result :=
  ⟨confines.holds, confines.scope, confines.frames.mono sub,
    fun quiet => (confines.gains quiet).mono sub,
    fun distinct free => confines.distinct distinct (free.mono sub)⟩

theorem same (here : R.Holds m.heap) (heap : (machineOf result).heap = m.heap)
    (scope : (machineOf result).scope = m.scope) (fine : R.Distinct → refuses result = false) :
    m.Confines R names result := by
  refine .of_gains ?_ scope ?_ fun distinct _ => fine distinct
  · rw [heap]
    exact here
  · rw [heap]
    exact .refl _ _ _

theorem trans {v : α} {result' : EStateM.Result Halt Machine β}
    (first : m.Confines R a (.ok v m₁ : EStateM.Result Halt Machine α))
    (second : m₁.Confines R b result') (apart : R.Distinct → ∀ y ∈ a, y ∉ b) :
    m.Confines R (a ++ b) result' := by
  obtain ⟨-, scope, frames, gains, -⟩ := first
  have frames' := second.frames
  have gains' := second.gains
  dsimp only [machineOf] at scope frames gains
  rw [scope] at frames' gains'
  refine ⟨second.holds, second.scope.trans scope, frames.trans frames',
    fun quiet => (gains quiet).trans (gains' quiet), fun distinct free => ?_⟩
  have free' := frames.free free (apart distinct)
  rw [← scope] at free'
  exact second.distinct distinct free'

end Machine.Confines

namespace Run.Confined

variable {R : Region} {α β : Type} {a b names : List String} {x : Run α}

theorem mono (confined : Confined R a x) (sub : a ⊆ b) : Confined R b x :=
  fun m here => (confined m here).mono sub

theorem pure (v : α) : Confined R names (Pure.pure v : Run α) :=
  fun _ here => .same here rfl rfl fun _ => rfl

theorem currentScope : Confined R names Run.currentScope :=
  fun _ here => .same here rfl rfl fun _ => rfl

theorem readClock : Confined R names Run.readClock :=
  fun _ here => .same here rfl rfl fun _ => rfl

theorem outOfFuel : Confined R names (Run.outOfFuel : Run α) :=
  fun _ here => .same here rfl rfl fun _ => rfl

theorem fail {e : Error} (other : R.Distinct → e.isRedefinition = false) :
    Confined R names (Run.fail e : Run α) :=
  fun _ here => .same here rfl rfl other

theorem ask {f : Machine → Except Error α}
    (fault : R.Distinct → ∀ m e, f m = .error e → e.isRedefinition = false) :
    Confined R names (Run.ask f) := by
  intro m here
  unfold Run.ask
  cases result : f m with
  | ok v => exact .same here rfl rfl fun _ => rfl
  | error e => exact .same here rfl rfl fun distinct => fault distinct m e result

theorem askOk (f : Machine → α) : Confined R names (Run.ask fun m => .ok (f m)) :=
  ask fun _ _ _ failed => by cases failed

theorem object (f : Heap → Option α) : Confined R names (Run.object f) := by
  intro m here
  unfold Run.object
  cases f m.heap <;> exact .same here rfl rfl fun _ => rfl

theorem print (value : Value) : Confined R names (Run.print value) := by
  intro m here
  unfold Run.print
  dsimp only
  split <;> exact .same here rfl rfl fun _ => rfl

theorem readRef (id : RefId) (name : Token) : Confined R names (Run.readRef id name) := by
  intro m here
  unfold Run.readRef
  cases found : slotOf m id name with
  | ok slot => exact .same here rfl rfl fun _ => rfl
  | error e => exact .same here rfl rfl fun _ => (slotOf_ordinary found).noRedefinition

theorem newScope (vars : Bindings Value) (parent : ScopeId) :
    Confined R [] (Run.newScope vars parent) :=
  fun _ here => .of_gains (here.congr ⟨rfl, rfl⟩) rfl (.addScope _) fun _ _ => rfl

theorem newInstance (c : ClassId) : Confined R [] (Run.newInstance c) :=
  fun _ here => .of_gains (here.congr ⟨rfl, rfl⟩) rfl (.addInstance _) fun _ _ => rfl

theorem setField (i : InstanceId) (name : Token) (value : Value) :
    Confined R [] (Run.setField i name value) :=
  fun _ here =>
    .of_gains (here.congr ⟨rfl, rfl⟩) rfl (.setField i name.lexeme value) fun _ _ => rfl

theorem newClosure {closure : Closure} (callee : R.Callee closure.code closure.isInitializer) :
    Confined R [] (Run.newClosure closure) :=
  fun _ here => .of_gains (here.addClosure callee) rfl (.addClosure closure) fun _ _ => rfl

theorem define (name : Token) (value : Value) :
    Confined R [name.lexeme] (Run.define name value) := by
  intro m here
  unfold Run.define
  cases result : m.heap.definable m.scope name.lexeme name.line with
  | ok _ =>
    refine .of_gains (here.congr ⟨rfl, rfl⟩) rfl ?_ fun _ _ => rfl
    exact .write value (.inr ⟨rfl, List.mem_cons_self⟩)
  | error e =>
    refine .of_gains here rfl (.refl _ _ _) fun _ free => ?_
    have unbound := (free name.lexeme List.mem_cons_self).2
    rw [(m.heap.definable_iff m.scope name.lexeme name.line).mpr unbound] at result
    cases result

theorem assigned {m : Machine} (here : R.Holds m.heap) {s : ScopeId} {name : String}
    (value : Value) (bound : m.heap.Binds s name) :
    m.Confines R [] (.ok () { m with heap := m.heap.write s name value } :
      EStateM.Result Halt Machine Unit) :=
  .of_gains (here.congr ⟨rfl, rfl⟩) rfl (.write value (.inl bound)) fun _ _ => rfl

theorem assignNearest (name : Token) (value : Value) :
    Confined R [] (Run.assignNearest name value) := by
  intro m here
  unfold Run.assignNearest
  cases found : m.heap.slot m.scope name.lexeme name.line with
  | ok slot => exact assigned here value (Heap.binds_of_slot found)
  | error e => exact .same here rfl rfl fun _ => (Heap.slot_ordinary found).noRedefinition

theorem writeRef (id : RefId) (name : Token) (value : Value) :
    Confined R [] (Run.writeRef id name value) := by
  intro m here
  unfold Run.writeRef
  cases found : slotOf m id name with
  | ok slot => exact assigned here value (binds_of_slotOf found)
  | error e => exact .same here rfl rfl fun _ => (slotOf_ordinary found).noRedefinition

theorem bind_of {Q : α → Prop} {f : α → Run β} (first : Confined R a x)
    (known : ∀ (m : Machine) v m', R.Holds m.heap → x m = .ok v m' → Q v)
    (apart : R.Distinct → ∀ y ∈ a, y ∉ b) (next : ∀ v, Q v → Confined R b (f v)) :
    Confined R (a ++ b) (x >>= f) := by
  intro m here
  have confines := first m here
  change m.Confines R (a ++ b) (EStateM.bind x f m)
  unfold EStateM.bind
  cases result : x m with
  | ok v m' =>
    rw [result] at confines
    exact confines.trans (next v (known m v m' here result) m' confines.holds) apart
  | error halt m' =>
    rw [result] at confines
    obtain ⟨holds, scope, frames, gains, distinct⟩ := confines.mono (List.subset_append_left a b)
    exact ⟨holds, scope, frames, gains, distinct⟩

theorem bind {f : α → Run β} (first : Confined R [] x) (next : ∀ v, Confined R names (f v)) :
    Confined R names (x >>= f) :=
  first.bind_of (Q := fun _ => True) (fun _ _ _ _ _ => trivial) (fun _ _ mem => by cases mem)
    fun v _ => next v

theorem andThen {f : α → Run β} (first : Confined R names x) (next : ∀ v, Confined R [] (f v)) :
    Confined R names (x >>= f) := by
  have both : Confined R (names ++ []) (x >>= f) :=
    first.bind_of (Q := fun _ => True) (fun _ _ _ _ _ => trivial) (fun _ _ _ mem => by cases mem)
      fun v _ => next v
  rwa [List.append_nil] at both

theorem map (f : α → β) (first : Confined R names x) : Confined R names (f <$> x) := by
  rw [map_eq_pure_bind]
  exact first.andThen fun v => pure (f v)

theorem bind_object {p : Heap → Option α} {f : α → Run β}
    (next : ∀ h v, R.Holds h → p h = some v → Confined R [] (f v)) :
    Confined R [] (Run.object p >>= f) := by
  refine (object p).bind_of (a := []) (Q := fun v => ∃ h, R.Holds h ∧ p h = some v)
    (fun m v m' here result => ?_) (fun _ _ mem => by cases mem)
    fun v ⟨h, here, found⟩ => next h v here found
  exact ⟨m.heap, here, (object_eq_ok result).1⟩

theorem enclosed {vars : Bindings Value} (parent : ScopeId) (body : Confined R a x)
    (free : R.Distinct → ∀ y ∈ a, vars.find? y = none) :
    Confined R [] (Run.newScope vars parent >>= fun scope => Run.inScope scope x) := by
  intro m here
  let entered : Machine :=
    { m with heap := m.heap.addScope ⟨vars, some parent⟩, scope := m.heap.scopes.size }
  have confines := body entered (here.congr ⟨rfl, rfl⟩)
  -- The new scope binds the given variables and no other names yet.
  have open' (distinct : R.Distinct) : entered.heap.Free entered.scope a := by
    refine fun y mem => ⟨by simp [entered, Heap.addScope], fun binds => ?_⟩
    obtain ⟨v, found⟩ := (m.heap.binds_addScope_new _ y).mp binds
    rw [free distinct y mem] at found
    cases found
  change m.Confines R [] (Run.inScope m.heap.scopes.size x { m with heap := entered.heap })
  unfold Run.inScope
  cases result : x entered with
  | ok _ m' | error _ m' =>
    rw [result] at confines
    exact ⟨confines.holds, rfl, confines.frames.enclosed, fun quiet => (confines.gains quiet).enclosed,
      fun distinct _ => confines.distinct distinct (open' distinct)⟩

theorem oneDeeper (line : Nat) (inner : Confined R names x) :
    Confined R names (Run.oneDeeper line x) := by
  intro m here
  have confines := inner { m with depth := m.depth + 1 } here
  unfold Run.oneDeeper
  dsimp only
  split
  · exact .same here rfl rfl fun _ => rfl
  · cases result : x { m with depth := m.depth + 1 } with
    | ok _ m' | error _ m' =>
      rw [result] at confines
      exact ⟨confines.holds, confines.scope, confines.frames, confines.gains, confines.distinct⟩

section Steps

variable {R : Region}

theorem bindMethod (method : FunctionId) (i : InstanceId) :
    Confined R [] (Evaluator.bindMethod method i) :=
  bind_object fun _ closure here found =>
    (newScope _ _).bind fun _ => newClosure (here.closures method closure found)

theorem gentle : Run.Gentle fun x => Confined R [] x where
  pure := pure
  fail ordinary := fail fun _ => ordinary.noRedefinition
  object := object
  ask ordinary := ask fun _ m e failed => (ordinary m.heap e failed).noRedefinition
  bindMethod := bindMethod
  bind := bind

theorem superBindings (id : RefId) (keyword : Token) :
    Confined R [] (Run.ask (Evaluator.superBindings id keyword)) :=
  ask fun _ _ _ failed => (Evaluator.superBindings_ordinary failed).noRedefinition

theorem evalFunction {f : Function} (callee : R.Callee f false) :
    Confined R [] (Evaluator.evalFunction f) :=
  currentScope.bind fun _ => (newClosure callee).map _

theorem execFunction {f : Function} (callee : R.Callee f false) :
    Confined R (Stmt.function f).names (Evaluator.execFunction f) := by
  have names : (Stmt.function f).names = f.name.toList.map Token.lexeme := rfl
  unfold Evaluator.execFunction
  rw [names]
  cases f.name with
  | none => exact fail fun _ => rfl
  | some name =>
    refine currentScope.bind fun _ => (newClosure callee).bind fun id => ?_
    exact (define name _).andThen fun _ => pure _

theorem methodScope (parent : Option ClassId) : Confined R [] (Evaluator.methodScope parent) := by
  cases parent with
  | none => exact currentScope
  | some c => exact currentScope.bind fun _ => newScope _ _

theorem methodTable (scope : ScopeId) {methods : List Function} (code : R.Code (.functions methods))
    (table : Bindings FunctionId) : Confined R [] (Evaluator.methodTable scope methods table) := by
  induction methods generalizing table with
  | nil => exact pure table
  | cons f methods ih =>
    have rest : R.Code (.functions methods) := R.parts code List.mem_cons_self
    exact (newClosure (R.method code)).bind fun id => ih rest _

end Steps

theorem methodTable_labels (scope : ScopeId) (methods : List Function) {table : Bindings FunctionId}
    {m : Machine} (labels : m.heap.Labels table) :
    ∃ table' m', Evaluator.methodTable scope methods table m = .ok table' m' ∧
      m'.heap.Labels table' := by
  induction methods generalizing table m with
  | nil => exact ⟨table, m, rfl, labels⟩
  | cons f methods ih =>
    let closure : Closure := ⟨f, scope, f.label == initializerName⟩
    have found : (m.heap.addClosure closure).closures[m.heap.closures.size]? = some closure := by
      simp [Heap.addClosure]
    have older := labels.mono (m.heap.grows_addClosure closure).closures
    exact ih (m := { m with heap := m.heap.addClosure closure }) (older.insert found rfl)

theorem newClass_of_methods {R : Region} (scope : ScopeId) {methods : List Function}
    (code : R.Code (.functions methods)) (name : String) (parent : Option ClassId) :
    Confined R [] (Evaluator.methodTable scope methods {} >>= fun table =>
      Run.newClass ⟨name, parent, table⟩) := by
  intro m here
  obtain ⟨table, m', result, labels⟩ := methodTable_labels scope methods m.heap.labels_empty
  have made := methodTable scope code {} m here
  rw [result] at made
  have added : m'.Confines R [] (Run.newClass ⟨name, parent, table⟩ m') :=
    .of_gains (made.holds.congr ⟨rfl, rfl⟩) rfl (.addClass labels) fun _ _ => rfl
  rw [bind_of_ok result]
  exact made.trans added fun _ _ mem => by cases mem

theorem buildClass {R : Region} (name : Token) (parent : Option ClassId) {methods : List Function}
    (own : R.Code (.functions methods)) :
    Confined R [] (Evaluator.buildClass name parent methods) := by
  refine (methodScope parent).bind fun scope => ?_
  have made := newClass_of_methods scope own name.lexeme parent
  rw [← bind_assoc]
  exact made.bind fun c => (assignNearest name _).bind fun _ => pure _

end Run.Confined

def Evaluator.Confined (ev : Evaluator) (R : Region) : Prop :=
  ∀ t, R.Task t → Run.Confined R t.names (ev.answer t)

def Evaluator.ActsConfined (ev : Evaluator) (R : Region) : Prop :=
  ∀ deed, R.Act deed → ∀ line, Run.Confined R [] (ev.actRule line deed)

namespace Evaluator.Confined

open Run.Confined

variable {R : Region} {ev : Evaluator}

theorem eval (confined : ev.Confined R) {e : Expr} (code : R.Code (.expr e)) :
    Run.Confined R [] (ev.eval e) :=
  confined (.expr e) code

theorem exec (confined : ev.Confined R) {s : Stmt} (code : R.Code (.stmt s)) :
    Run.Confined R s.names (ev.exec s) :=
  confined (.stmt s) code

theorem consecutive (confined : ev.Confined R) {α : Type} {s : Stmt} {rest : List Stmt}
    {f : Flow → Run α} (code : R.Code (.stmt s)) (apart : R.Distinct → (namesOf (s :: rest)).Nodup)
    (next : ∀ flow, Run.Confined R (namesOf rest) (f flow)) :
    Run.Confined R (namesOf (s :: rest)) (ev.exec s >>= f) := by
  rw [namesOf_cons] at apart ⊢
  refine (confined.exec code).bind_of (Q := fun _ => True) (fun _ _ _ _ _ => trivial)
    (fun distinct y mem mem' => ?_) fun flow _ => next flow
  exact (List.nodup_append.mp (apart distinct)).2.2 y mem y mem' rfl

theorem nodup_rest {s : Stmt} {rest : List Stmt} (apart : R.Distinct → (namesOf (s :: rest)).Nodup)
    (distinct : R.Distinct) : (namesOf rest).Nodup := by
  have both := apart distinct
  rw [namesOf_cons] at both
  exact (List.nodup_append.mp both).2.1

theorem sequence (confined : ev.Confined R) {body : List Stmt} (code : R.Code (.stmts body))
    (apart : R.Distinct → (namesOf body).Nodup) :
    Run.Confined R (namesOf body) (ev.sequence body) := by
  induction body with
  | nil => exact pure _
  | cons s body ih =>
    have first : R.Code (.stmt s) := R.parts code List.mem_cons_self
    have rest : R.Code (.stmts body) := R.parts code (List.mem_cons_of_mem _ List.mem_cons_self)
    refine confined.consecutive first apart fun flow => ?_
    cases flow with
    | normal => exact ih rest (nodup_rest apart)
    | returned _ | broke => exact pure _

theorem runTopLevel (confined : ev.Confined R) {program : List Stmt}
    (code : R.Code (.stmts program)) (apart : R.Distinct → (namesOf program).Nodup) :
    Run.Confined R (namesOf program) (runTopLevel ev program) := by
  induction program with
  | nil => exact pure ()
  | cons s program ih =>
    have first : R.Code (.stmt s) := R.parts code List.mem_cons_self
    have rest : R.Code (.stmts program) := R.parts code (List.mem_cons_of_mem _ List.mem_cons_self)
    refine confined.consecutive first apart fun flow => ?_
    cases flow with
    | normal => exact ih rest (nodup_rest apart)
    | returned _ | broke => exact fail fun _ => rfl

theorem callClosure (confined : ev.Confined R) (id : FunctionId) (arguments : List Value)
    (line : Nat) : Run.Confined R [] (ev.callClosure id arguments line) := by
  refine bind_object fun h closure here found => ?_
  have callee := here.closures id closure found
  have fits (distinct : R.Distinct) : ∃ vars,
      bindParams closure.code.params arguments {} = .ok vars ∧
        ∀ x, x ∉ closure.code.params.map Token.lexeme → vars.find? x = none :=
    bindParams_distinct (List.nodup_append.mp (distinct.callee callee)).1 fun _ _ => rfl
  have params :
      Run.Confined R [] (Run.ask fun _ => bindParams closure.code.params arguments {}) := by
    refine ask fun distinct m e failed => ?_
    obtain ⟨vars, bound, -⟩ := fits distinct
    rw [bound] at failed
    cases failed
  -- The body may declare its names in the scope of the parameters, which has none of them yet.
  refine params.bind_of (a := [])
    (Q := fun vars => R.Distinct → ∀ x ∈ namesOf closure.code.body, vars.find? x = none)
    (fun m vars m' _ result distinct x mem => ?_) (fun _ _ mem => by cases mem)
    fun vars unbound => ?_
  · obtain ⟨vars', bound, other⟩ := fits distinct
    unfold Run.ask at result
    rw [bound] at result
    cases result
    refine other x fun mem' => ?_
    exact (List.nodup_append.mp (distinct.callee callee)).2.2 x mem' x mem rfl
  · have apart (distinct : R.Distinct) : (namesOf closure.code.body).Nodup :=
      (List.nodup_append.mp (distinct.callee callee)).2.1
    have body := enclosed closure.scope (confined.sequence (R.body callee) apart) unbound
    rw [← bind_assoc]
    exact body.bind fun flow => gentle.resultOf closure line flow

theorem construct (confined : ev.Confined R) (c : ClassId) (arguments : List Value) (line : Nat) :
    Run.Confined R [] (ev.construct c arguments line) := by
  refine (newInstance c).bind fun i => (askOk _).bind fun method => ?_
  cases method with
  | none => exact pure _
  | some method =>
    refine (Run.Confined.bindMethod method i).bind fun bound => ?_
    exact (confined.callClosure bound arguments line).bind fun _ => pure _

theorem callNative (confined : ev.Confined R) (id : NativeId) (arguments : List Value)
    (line : Nat) : Run.Confined R [] (ev.callNative id arguments line) := by
  refine bind_object fun h native here found => ?_
  cases reply : native.respond arguments line with
  | value v => exact pure v
  | error e => exact fail fun distinct => distinct.host (here.natives id native found) reply
  | invoke callee arguments => exact confined (.call callee arguments line) trivial
  | now => exact readClock
  | act deed => exact confined (.act deed line) (R.acts (here.natives id native found) _ _ _ reply)

theorem invokeRule (confined : ev.Confined R) (callee : Callable) (arguments : List Value)
    (line : Nat) : Run.Confined R [] (ev.invokeRule callee arguments line) := by
  cases callee with
  | function id => exact confined.callClosure id arguments line
  | native id => exact confined.callNative id arguments line
  | classRef id => exact confined.construct id arguments line

theorem evalAll (confined : ev.Confined R) {es : List Expr} (code : R.Code (.exprs es))
    (found : List Value) : Run.Confined R [] (ev.evalAll es found) := by
  induction es generalizing found with
  | nil => exact pure _
  | cons e es ih =>
    have first : R.Code (.expr e) := R.parts code List.mem_cons_self
    have rest : R.Code (.exprs es) := R.parts code (List.mem_cons_of_mem _ List.mem_cons_self)
    exact (confined.eval first).bind fun v => ih rest (v :: found)

theorem evalCall (confined : ev.Confined R) {callee : Expr} (paren : Token) {arguments : List Expr}
    (first : R.Code (.expr callee)) (rest : R.Code (.exprs arguments)) :
    Run.Confined R [] (ev.evalCall callee paren arguments) := by
  refine (confined.eval first).bind fun f => (confined.evalAll rest []).bind fun values => ?_
  cases f.callable? with
  | none => exact fail fun _ => rfl
  | some callable =>
    refine (askOk _).bind fun arity => ?_
    by_cases fits : values.length = arity
    · simp only [fits, if_true]
      exact (confined.invokeRule callable values paren.line).oneDeeper paren.line
    · simp only [fits, if_false]
      exact fail fun _ => rfl

theorem evalRule (confined : ev.Confined R) {e : Expr} (code : R.Code (.expr e)) :
    Run.Confined R [] (ev.evalRule e) := by
  have part {q : Piece} (mem : q ∈ e.parts) : R.Code q := R.parts code mem
  cases e with
  | literal _ => exact pure _
  | «variable» id name => exact readRef id name
  | this id keyword => exact readRef id keyword
  | super id keyword method => exact gentle.evalSuper (.superBindings id keyword) method
  | function f => exact .evalFunction (R.anonymous code)
  | grouping e => exact confined.eval (part List.mem_cons_self)
  | unary operator e =>
    refine (confined.eval (part List.mem_cons_self)).bind fun v => ?_
    exact ask fun _ _ _ failed => (Operator.unary_ordinary failed).noRedefinition
  | binary left operator right =>
    refine (confined.eval (part List.mem_cons_self)).bind fun a => ?_
    refine (confined.eval (part (List.mem_cons_of_mem _ List.mem_cons_self))).bind fun b => ?_
    exact ask fun _ _ _ failed => (Operator.binary_ordinary failed).noRedefinition
  | logical left operator right =>
    refine (confined.eval (part List.mem_cons_self)).bind fun a => ?_
    by_cases decided : a.isTruthy == operator.is .orKw
    · simp only [decided, if_true]
      exact pure a
    · simp only [decided]
      exact confined.eval (part (List.mem_cons_of_mem _ List.mem_cons_self))
  | assign id name e =>
    refine (confined.eval (part List.mem_cons_self)).bind fun v => ?_
    exact (writeRef id name v).bind fun _ => pure v
  | call callee paren arguments =>
    exact confined.evalCall paren (part List.mem_cons_self)
      (part (List.mem_cons_of_mem _ List.mem_cons_self))
  | get e name =>
    refine (confined.eval (part List.mem_cons_self)).bind fun v => ?_
    cases v with
    | instanceRef i => exact gentle.property i name
    | _ => exact fail fun _ => rfl
  | set object name e =>
    refine (confined.eval (part List.mem_cons_self)).bind fun v => ?_
    cases v with
    | instanceRef i =>
      refine (confined.eval (part (List.mem_cons_of_mem _ List.mem_cons_self))).bind fun v => ?_
      exact (setField i name v).bind fun _ => pure v
    | _ => exact fail fun _ => rfl

theorem evalOptional (confined : ev.Confined R) {e : Option Expr}
    (code : ∀ e' ∈ e, R.Code (.expr e')) : Run.Confined R [] (ev.evalOptional e) := by
  cases e with
  | none => exact pure _
  | some e => exact confined.eval (code e rfl)

theorem execLoop (confined : ev.Confined R) {condition : Expr} {body : Stmt}
    (first : R.Code (.expr condition)) (inner : R.Code (.stmt body))
    (none : R.Distinct → body.names = []) (n : Nat) :
    Run.Confined R body.names (ev.execLoop condition body n) := by
  induction n with
  | zero => exact outOfFuel
  | succ n ih =>
    refine (confined.eval first).bind fun v => ?_
    cases v.isTruthy with
    | false => exact pure _
    | true =>
      -- All rounds declare the same names in the same scope, so there must be none to refuse.
      have twice : body.names ++ body.names ⊆ body.names :=
        List.append_subset.mpr ⟨List.Subset.refl _, List.Subset.refl _⟩
      refine Run.Confined.mono ?_ twice
      refine (confined.exec inner).bind_of (Q := fun _ => True) (fun _ _ _ _ _ => trivial)
        (fun distinct y mem => ?_) fun flow _ => ?_
      · rw [none distinct] at mem
        cases mem
      · cases flow with
        | normal => exact ih
        | broke | returned _ => exact pure _

theorem evalSuperclass (confined : ev.Confined R) (name : Token) {superclass : Option Expr}
    (code : ∀ e ∈ superclass, R.Code (.expr e)) :
    Run.Confined R [] (ev.evalSuperclass name superclass) := by
  cases superclass with
  | none => exact pure _
  | some e =>
    refine (confined.eval (code e rfl)).bind fun v => ?_
    cases v with
    | classRef c => exact pure _
    | _ => exact fail fun _ => rfl

theorem execClass (confined : ev.Confined R) (name : Token) {superclass : Option Expr}
    {methods : List Function} (above : ∀ e ∈ superclass, R.Code (.expr e))
    (own : R.Code (.functions methods)) :
    Run.Confined R [name.lexeme] (ev.execClass name superclass methods) := by
  rw [execClass_eq]
  refine (define name .nil).andThen fun _ => ?_
  exact (confined.evalSuperclass name above).bind fun parent => .buildClass name parent own

theorem execRule (confined : ev.Confined R) {s : Stmt} (code : R.Code (.stmt s)) :
    Run.Confined R s.names (ev.execRule s) := by
  have part {q : Piece} (mem : q ∈ s.parts) : R.Code q := R.parts code mem
  cases s with
  | breakLoop _ => exact pure _
  | function f => exact .execFunction (R.named code)
  | expression e => exact (confined.eval (part List.mem_cons_self)).bind fun _ => pure _
  | print e =>
    refine (confined.eval (part List.mem_cons_self)).bind fun v => ?_
    exact (print v).bind fun _ => pure _
  | var name initializer =>
    have value : ∀ e ∈ initializer, R.Code (.expr e) := by
      rintro e rfl
      exact part List.mem_cons_self
    refine (confined.evalOptional value).bind fun v => ?_
    exact (define name v).andThen fun _ => pure _
  | block body =>
    have inner := confined.sequence (part List.mem_cons_self) fun distinct => distinct.block code
    exact currentScope.bind fun outer => enclosed outer inner fun _ _ _ => rfl
  -- A hand-built branch may declare a name, in the scope of the whole statement.
  | conditional condition thenBranch elseBranch =>
    cases elseBranch with
    | none =>
      refine (confined.eval (part List.mem_cons_self)).bind fun v => ?_
      cases v.isTruthy with
      | true => exact confined.exec (part (List.mem_cons_of_mem _ List.mem_cons_self))
      | false => exact pure _
    | some s =>
      have both : (Stmt.conditional condition thenBranch (some s)).names =
          thenBranch.names ++ s.names := List.map_append
      refine (confined.eval (part List.mem_cons_self)).bind fun v => ?_
      rw [both]
      cases v.isTruthy with
      | true =>
        have first := confined.exec (part (List.mem_cons_of_mem _ List.mem_cons_self))
        exact first.mono (List.subset_append_left _ _)
      | false =>
        have second := confined.exec
          (part (List.mem_cons_of_mem _ (List.mem_cons_of_mem _ List.mem_cons_self)))
        exact second.mono (List.subset_append_right _ _)
  | loop condition body =>
    have inner := part (List.mem_cons_of_mem _ List.mem_cons_self)
    exact confined.execLoop (part List.mem_cons_self) inner (fun distinct => distinct.loop code)
      ev.rounds
  | returnFrom _ value =>
    have given : ∀ e ∈ value, R.Code (.expr e) := by
      rintro e rfl
      exact part List.mem_cons_self
    exact (confined.evalOptional given).map Flow.returned
  | classDecl name superclass methods =>
    cases superclass with
    | none => exact confined.execClass name (fun e mem => by cases mem) (part List.mem_cons_self)
    | some superclass =>
      have above : ∀ e ∈ some superclass, R.Code (.expr e) := by
        rintro e ⟨⟩
        exact part List.mem_cons_self
      exact confined.execClass name above (part (List.mem_cons_of_mem _ List.mem_cons_self))

theorem rule (confined : ev.Confined R) (acts : ev.ActsConfined R) {t : Task} (within : R.Task t) :
    Run.Confined R t.names (ev.rule t) := by
  cases t with
  | expr e => exact confined.evalRule within
  | stmt s => exact confined.execRule within
  | call callee arguments line => exact confined.invokeRule callee arguments line
  | act deed line => exact acts deed within line

end Evaluator.Confined

theorem Evaluator.confined_of_acts {R : Region}
    (acts : ∀ ev : Evaluator, ev.Confined R → ev.ActsConfined R) (n : Nat) :
    (withFuel n).Confined R := by
  induction n with
  | zero =>
    intro t _
    cases t <;> exact .outOfFuel
  | succ n ih =>
    -- An answer is a rule that asks for answers with less fuel.
    intro t within
    have same : (withFuel (n + 1)).answer t = (withFuel n).rule t :=
      funext fun m => answer_withFuel_succ n t m
    rw [same]
    exact ih.rule (acts _ ih) within

theorem Evaluator.confined_withFuel {R : Region} (quiet : R.Quiet) (n : Nat) :
    (withFuel n).Confined R :=
  confined_of_acts (fun _ _ deed act => (quiet deed act).elim) n

end Quill
