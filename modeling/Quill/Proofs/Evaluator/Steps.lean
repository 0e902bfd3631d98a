import Quill.Proofs.Evaluator.Calm
import Quill.Proofs.Evaluator.Dialogue

set_option autoImplicit false

namespace Quill

def Machine.amid (m n : Machine) : Machine :=
  { m with sink := n.sink, clock := n.clock, depth := n.depth, maxDepth := n.maxDepth }

def mapMachine {α : Type} (g : Machine → Machine) :
    EStateM.Result Halt Machine α → EStateM.Result Halt Machine α
  | .ok a m => .ok a (g m)
  | .error halt m => .error halt (g m)

@[simp] theorem machineOf_mapMachine {α : Type} (g : Machine → Machine)
    (result : EStateM.Result Halt Machine α) :
    machineOf (mapMachine g result) = g (machineOf result) := by
  cases result <;> rfl

namespace Run

def borrowing {α : Type} (enter : Machine → Machine) (leave : Machine → Machine → Machine)
    (x : Run α) : Run α := fun m =>
  match x (enter m) with
  | .ok a m' => .ok a (leave m m')
  | .error e m' => .error e (leave m m')

theorem inScope_eq {α : Type} (s : ScopeId) (x : Run α) :
    inScope s x = borrowing (fun m => { m with scope := s })
      (fun m m' => { m' with scope := m.scope }) x :=
  rfl

theorem oneDeeper_eq {α : Type} (line : Nat) (x : Run α) :
    oneDeeper line x = ask (fun m =>
        if m.maxDepth ≤ m.depth then .error (.runtime .stackOverflow line) else .ok ()) >>= fun _ =>
      borrowing (fun m => { m with depth := m.depth + 1 })
        (fun m m' => { m' with depth := m.depth }) x := by
  funext m
  change _ = EStateM.bind (ask _) _ m
  unfold oneDeeper EStateM.bind ask
  by_cases deep : m.maxDepth ≤ m.depth
  · simp only [deep, if_true]
  · simp only [deep, if_false]
    rfl

theorem print_of_fits {v : Value} {m : Machine}
    (fits : m.sink.accepts (m.heap.display v ++ "\n").toUTF8.size =
      (m.heap.display v ++ "\n").toUTF8.size) :
    print v m = .ok () { m with
      sink.written := m.sink.written ++ (m.heap.display v ++ "\n").toUTF8 } := by
  unfold print
  simp only [fits, Sink.write, beq_self_eq_true, if_true, ByteArray.extract_zero_size]

theorem print_of_full {v : Value} {m : Machine}
    (full : m.sink.accepts (m.heap.display v ++ "\n").toUTF8.size ≠
      (m.heap.display v ++ "\n").toUTF8.size) :
    print v m = .error (.error (.io .sinkFull))
      { m with sink := m.sink.write (m.heap.display v ++ "\n").toUTF8 } := by
  unfold print
  simp only [beq_eq_false_iff_ne.mpr full, Bool.false_eq_true, if_false]

structure OnHeap {α : Type} (x : Run α) : Prop where
  same : ∀ m n : Machine, x (m.amid n) = mapMachine (·.amid n) (x m)
  stays : ∀ m : Machine, ∃ h, machineOf (x m) = { m with heap := h } ∧ h.natives = m.heap.natives

namespace OnHeap

variable {α β : Type} {x : Run α}

theorem natives (onHeap : OnHeap x) (m : Machine) :
    (machineOf (x m)).heap.natives = m.heap.natives := by
  obtain ⟨h, stays, same⟩ := onHeap.stays m
  rw [stays]
  exact same

theorem pure (a : α) : OnHeap (Pure.pure a : Run α) :=
  ⟨fun _ _ => rfl, fun _ => ⟨_, rfl, rfl⟩⟩

theorem fail (e : Error) : OnHeap (Run.fail e : Run α) :=
  ⟨fun _ _ => rfl, fun _ => ⟨_, rfl, rfl⟩⟩

theorem outOfFuel : OnHeap (Run.outOfFuel : Run α) :=
  ⟨fun _ _ => rfl, fun _ => ⟨_, rfl, rfl⟩⟩

theorem currentScope : OnHeap Run.currentScope :=
  ⟨fun _ _ => rfl, fun _ => ⟨_, rfl, rfl⟩⟩

theorem newScope (vars : Bindings Value) (parent : ScopeId) : OnHeap (Run.newScope vars parent) :=
  ⟨fun _ _ => rfl, fun _ => ⟨_, rfl, rfl⟩⟩

theorem newClosure (closure : Closure) : OnHeap (Run.newClosure closure) :=
  ⟨fun _ _ => rfl, fun _ => ⟨_, rfl, rfl⟩⟩

theorem newClass (c : Class) : OnHeap (Run.newClass c) :=
  ⟨fun _ _ => rfl, fun _ => ⟨_, rfl, rfl⟩⟩

theorem newInstance (c : ClassId) : OnHeap (Run.newInstance c) :=
  ⟨fun _ _ => rfl, fun _ => ⟨_, rfl, rfl⟩⟩

theorem setField (i : InstanceId) (name : Token) (value : Value) :
    OnHeap (Run.setField i name value) :=
  ⟨fun _ _ => rfl, fun _ => ⟨_, rfl, rfl⟩⟩

theorem of_lookup {γ : Type} (lookup : Machine → Except Error γ) (value : γ → α)
    (heap : Machine → γ → Heap)
    (step : ∀ m, x m = match lookup m with
      | .error e => .error (.error e) m
      | .ok a => .ok (value a) { m with heap := heap m a })
    (free : ∀ m n : Machine, lookup (m.amid n) = lookup m)
    (same : ∀ (m n : Machine) a, heap (m.amid n) a = heap m a)
    (natives : ∀ m a, (heap m a).natives = m.heap.natives) : OnHeap x := by
  refine ⟨fun m n => ?_, fun m => ?_⟩
  · rw [step, step, free]
    cases lookup m with
    | error e => rfl
    | ok a =>
      dsimp only
      rw [same]
      rfl
  · rw [step]
    cases lookup m with
    | error e => exact ⟨_, rfl, rfl⟩
    | ok a => exact ⟨_, rfl, natives m a⟩

theorem ask {f : Machine → Except Error α} (free : ∀ m n : Machine, f (m.amid n) = f m) :
    OnHeap (Run.ask f) := by
  refine of_lookup f id (fun m _ => m.heap) (fun m => ?_) free (fun _ _ _ => rfl) fun _ _ => rfl
  unfold Run.ask
  cases f m <;> rfl

theorem object (f : Heap → Option α) : OnHeap (Run.object f) := by
  refine ⟨fun m n => ?_, fun m => ?_⟩
  · have same : (m.amid n).heap = m.heap := rfl
    unfold Run.object
    rw [same]
    cases f m.heap <;> rfl
  · unfold Run.object
    cases f m.heap <;> exact ⟨_, rfl, rfl⟩

theorem define (name : Token) (value : Value) : OnHeap (Run.define name value) := by
  refine of_lookup (fun m => m.heap.definable m.scope name.lexeme name.line) (fun _ => ())
    (fun m _ => m.heap.write m.scope name.lexeme value) (fun m => ?_) (fun _ _ => rfl)
    (fun _ _ _ => rfl) fun _ _ => rfl
  unfold Run.define
  cases m.heap.definable m.scope name.lexeme name.line <;> rfl

theorem assignNearest (name : Token) (value : Value) : OnHeap (Run.assignNearest name value) := by
  refine of_lookup (fun m => m.heap.slot m.scope name.lexeme name.line) (fun _ => ())
    (fun m slot => m.heap.write slot.scope name.lexeme value) (fun m => ?_) (fun _ _ => rfl)
    (fun _ _ _ => rfl) fun _ _ => rfl
  unfold Run.assignNearest
  cases m.heap.slot m.scope name.lexeme name.line <;> rfl

theorem readRef (id : RefId) (name : Token) : OnHeap (Run.readRef id name) := by
  refine of_lookup (slotOf · id name) Slot.value (fun m _ => m.heap) (fun m => ?_)
    (fun _ _ => rfl) (fun _ _ _ => rfl) fun _ _ => rfl
  unfold Run.readRef
  cases slotOf m id name <;> rfl

theorem writeRef (id : RefId) (name : Token) (value : Value) :
    OnHeap (Run.writeRef id name value) := by
  refine of_lookup (slotOf · id name) (fun _ => ())
    (fun m slot => m.heap.write slot.scope name.lexeme value) (fun m => ?_) (fun _ _ => rfl)
    (fun _ _ _ => rfl) fun _ _ => rfl
  unfold Run.writeRef
  cases slotOf m id name <;> rfl

theorem bind {f : α → Run β} (first : OnHeap x) (next : ∀ a, OnHeap (f a)) : OnHeap (x >>= f) := by
  refine ⟨fun m n => ?_, fun m => ?_⟩
  · rw [bind_eq_match, bind_eq_match, first.same m n]
    cases x m with
    | ok a m' => exact (next a).same m' n
    | error halt m' => rfl
  · obtain ⟨h, stays, natives⟩ := first.stays m
    rw [bind_eq_match]
    cases result : x m with
    | ok a m' =>
      rw [result] at stays
      obtain rfl : m' = { m with heap := h } := stays
      obtain ⟨h', stays', natives'⟩ := (next a).stays { m with heap := h }
      exact ⟨h', stays', natives'.trans natives⟩
    | error halt m' =>
      rw [result] at stays
      exact ⟨h, stays, natives⟩

theorem bindMethod (method : FunctionId) (i : InstanceId) :
    OnHeap (Evaluator.bindMethod method i) :=
  (object _).bind fun _ => (newScope _ _).bind fun _ => newClosure _

theorem gentle : Gentle @OnHeap where
  pure := pure
  fail _ := fail _
  object := object
  ask _ := ask fun _ _ => rfl
  bindMethod := bindMethod
  bind := bind

theorem execFunction (f : Function) : OnHeap (Evaluator.execFunction f) := by
  unfold Evaluator.execFunction
  cases f.name with
  | none => exact fail _
  | some name =>
    refine currentScope.bind fun scope => (newClosure _).bind fun id => ?_
    exact (define name _).bind fun _ => pure _

theorem evalFunction (f : Function) : OnHeap (Evaluator.evalFunction f) :=
  currentScope.bind fun _ => gentle.map _ (newClosure _)

theorem methodScope (parent : Option ClassId) : OnHeap (Evaluator.methodScope parent) := by
  cases parent with
  | none => exact currentScope
  | some c => exact currentScope.bind fun _ => newScope _ _

theorem methodTable (scope : ScopeId) (methods : List Function) (table : Bindings FunctionId) :
    OnHeap (Evaluator.methodTable scope methods table) := by
  induction methods generalizing table with
  | nil => exact pure table
  | cons f methods ih => exact (newClosure _).bind fun id => ih _

theorem makeClass (name : Token) (methods : List Function) (parent : Option ClassId) :
    OnHeap (do
      let scope ← Evaluator.methodScope parent
      let table ← Evaluator.methodTable scope methods {}
      let c ← Run.newClass ⟨name.lexeme, parent, table⟩
      Run.assignNearest name (.classRef c)
      Pure.pure Flow.normal) := by
  refine (methodScope parent).bind fun scope => (methodTable scope methods {}).bind fun table => ?_
  exact (newClass _).bind fun c => (assignNearest name _).bind fun _ => pure _

end OnHeap

end Run

def Task.Modest : Task → Prop
  | .expr (.set ..) | .stmt (.classDecl ..) | .act .. => False
  | _ => True

def Task.Within (A : Deed → Prop) : Task → Prop
  | .act deed _ => A deed
  | _ => True

theorem Task.Own.within {t : Task} (own : t.Own) (A : Deed → Prop) : t.Within A := by
  cases t with
  | act => exact own.elim
  | _ => trivial

namespace Run

/-- A property that steps have which stay on the heap and leave its instances alone, and that is
kept when steps are put together. -/
structure Woven (P : {α : Type} → Run α → Prop) : Prop where
  own : ∀ {α : Type} {x : Run α}, OnHeap x → Calm x → P x
  print : ∀ v, P (Run.print v)
  readClock : P Run.readClock
  bind : ∀ {α β : Type} {x : Run α} {f : α → Run β}, P x → (∀ a, P (f a)) → P (x >>= f)
  inScope : ∀ {α : Type} {x : Run α} (s : ScopeId), P x → P (Run.inScope s x)
  oneDeeper : ∀ {α : Type} {x : Run α} (line : Nat), P x → P (Run.oneDeeper line x)

structure Closed (P : {α : Type} → Run α → Prop) : Prop where
  onHeap : ∀ {α : Type} {x : Run α}, OnHeap x → P x
  print : ∀ v, P (Run.print v)
  readClock : P Run.readClock
  bind : ∀ {α β : Type} {x : Run α} {f : α → Run β}, P x → (∀ a, P (f a)) → P (x >>= f)
  inScope : ∀ {α : Type} {x : Run α} (s : ScopeId), P x → P (Run.inScope s x)
  oneDeeper : ∀ {α : Type} {x : Run α} (line : Nat), P x → P (Run.oneDeeper line x)

structure Hosting (A : Deed → Prop) (P : {α : Type} → Run α → Prop) : Prop where
  calls : ∀ {ev : Evaluator}, (∀ t : Task, t.Within A → P (ev.answer t)) →
    ∀ id arguments line, P (ev.callNative id arguments line)
  acts : ∀ {ev : Evaluator}, (∀ t : Task, t.Within A → P (ev.answer t)) →
    ∀ {deed : Deed}, A deed → ∀ line, P (ev.actRule line deed)

theorem Closed.woven {P : {α : Type} → Run α → Prop} (closed : Closed P) : Woven P :=
  { closed with own := fun onHeap _ => closed.onHeap onHeap }

end Run

namespace Evaluator

section Rules

variable {P : {α : Type} → Run α → Prop} (woven : Run.Woven P) {ev : Evaluator}
  (parts : ∀ t : Task, t.Own → P (ev.answer t))
  (host : ∀ id arguments line, P (ev.callNative id arguments line))

include woven

theorem pure_woven {α : Type} (a : α) : P (pure a : Run α) :=
  woven.own (.pure a) (.pure a)

theorem fail_woven {α : Type} (e : Error) : P (Run.fail e : Run α) :=
  woven.own (.fail e) (.fail e)

theorem object_woven {α : Type} (f : Heap → Option α) : P (Run.object f) :=
  woven.own (.object f) (.object f)

theorem ask_woven {α : Type} {f : Machine → Except Error α}
    (free : ∀ m n : Machine, f (m.amid n) = f m) : P (Run.ask f) :=
  woven.own (.ask free) (.ask f)

theorem newScope_woven (vars : Bindings Value) (parent : ScopeId) :
    P (Run.newScope vars parent) :=
  woven.own (.newScope vars parent) (.newScope vars parent)

theorem callNative_woven (all : ∀ t : Task, P (ev.answer t)) (id : NativeId)
    (arguments : List Value) (line : Nat) : P (ev.callNative id arguments line) := by
  refine woven.bind (object_woven woven _) fun native => ?_
  cases native.respond arguments line with
  | value v => exact pure_woven woven v
  | error e => exact fail_woven woven e
  | invoke callee arguments => exact all (.call callee arguments line)
  | now => exact woven.readClock
  | act deed => exact all (.act deed line)

include parts

theorem sequence_woven (body : List Stmt) : P (ev.sequence body) := by
  induction body with
  | nil => exact pure_woven woven _
  | cons s body ih =>
    refine woven.bind (parts (.stmt s) trivial) fun flow => ?_
    cases flow with
    | normal => exact ih
    | returned _ | broke => exact pure_woven woven _

theorem callClosure_woven (id : FunctionId) (arguments : List Value) (line : Nat) :
    P (ev.callClosure id arguments line) := by
  refine woven.bind (object_woven woven _) fun closure => ?_
  refine woven.bind (ask_woven woven fun _ _ => rfl) fun vars => ?_
  refine woven.bind (newScope_woven woven _ _) fun scope => ?_
  refine woven.bind (woven.inScope scope (sequence_woven woven parts closure.code.body)) ?_
  exact fun flow => woven.own (Run.OnHeap.gentle.resultOf closure line flow)
    (Run.Calm.gentle.resultOf closure line flow)

include host

theorem invokeRule_woven (callee : Callable) (arguments : List Value) (line : Nat) :
    P (ev.invokeRule callee arguments line) := by
  cases callee with
  | function id => exact callClosure_woven woven parts id arguments line
  | native id => exact host id arguments line
  | classRef id =>
    refine woven.bind (woven.own (.newInstance id) (.newInstance id)) fun i => ?_
    refine woven.bind (ask_woven woven fun _ _ => rfl) fun method => ?_
    cases method with
    | none => exact pure_woven woven _
    | some method =>
      refine woven.bind (woven.own (.bindMethod method i) (.bindMethod method i)) fun bound => ?_
      refine woven.bind (callClosure_woven woven parts bound arguments line) fun _ => ?_
      exact pure_woven woven _

omit host in
theorem evalAll_woven (es : List Expr) (found : List Value) : P (ev.evalAll es found) := by
  induction es generalizing found with
  | nil => exact pure_woven woven _
  | cons e es ih => exact woven.bind (parts (.expr e) trivial) fun v => ih (v :: found)

theorem evalCall_woven (callee : Expr) (paren : Token) (arguments : List Expr) :
    P (ev.evalCall callee paren arguments) := by
  refine woven.bind (parts (.expr callee) trivial) fun f => ?_
  refine woven.bind (evalAll_woven woven parts arguments []) fun values => ?_
  cases f.callable? with
  | none => exact fail_woven woven _
  | some callable =>
    refine woven.bind (ask_woven woven fun _ _ => rfl) fun arity => ?_
    by_cases fits : values.length = arity
    · simp only [fits, if_true]
      exact woven.oneDeeper paren.line (invokeRule_woven woven parts host callable values paren.line)
    · simp only [fits, if_false]
      exact fail_woven woven _

theorem evalRule_woven (e : Expr) (modest : (Task.expr e).Modest) : P (ev.evalRule e) := by
  cases e with
  | literal _ => exact pure_woven woven _
  | «variable» id name => exact woven.own (.readRef id name) (.readRef id name)
  | this id keyword => exact woven.own (.readRef id keyword) (.readRef id keyword)
  | super id keyword method =>
    exact woven.own (Run.OnHeap.gentle.evalSuper (.ask fun _ _ => rfl) method)
      (Run.Calm.gentle.evalSuper (.ask _) method)
  | function f => exact woven.own (.evalFunction f) (.evalFunction f)
  | grouping e => exact parts (.expr e) trivial
  | unary operator e =>
    exact woven.bind (parts (.expr e) trivial) fun v => ask_woven woven fun _ _ => rfl
  | binary left operator right =>
    refine woven.bind (parts (.expr left) trivial) fun a =>
      woven.bind (parts (.expr right) trivial) fun b => ?_
    exact ask_woven woven fun _ _ => rfl
  | logical left operator right =>
    refine woven.bind (parts (.expr left) trivial) fun a => ?_
    by_cases decided : a.isTruthy == operator.is .orKw
    · simp only [decided, if_true]
      exact pure_woven woven a
    · simp only [decided]
      exact parts (.expr right) trivial
  | assign id name e =>
    refine woven.bind (parts (.expr e) trivial) fun v => woven.own ?_ ?_
    · exact (Run.OnHeap.writeRef id name v).bind fun _ => .pure v
    · exact (Run.Calm.writeRef id name v).bind fun _ => .pure v
  | call callee paren arguments => exact evalCall_woven woven parts host callee paren arguments
  | get e name =>
    refine woven.bind (parts (.expr e) trivial) fun v => ?_
    cases v with
    | instanceRef i =>
      exact woven.own (Run.OnHeap.gentle.property i name) (Run.Calm.gentle.property i name)
    | _ => exact fail_woven woven _
  | set object name e => exact modest.elim

omit host in
theorem evalOptional_woven (e : Option Expr) : P (ev.evalOptional e) := by
  cases e with
  | none => exact pure_woven woven _
  | some e => exact parts (.expr e) trivial

omit host in
theorem execLoop_woven (condition : Expr) (body : Stmt) (n : Nat) :
    P (ev.execLoop condition body n) := by
  induction n with
  | zero => exact woven.own .outOfFuel .outOfFuel
  | succ n ih =>
    refine woven.bind (parts (.expr condition) trivial) fun v => ?_
    cases v.isTruthy with
    | false => exact pure_woven woven _
    | true =>
      refine woven.bind (parts (.stmt body) trivial) fun flow => ?_
      cases flow with
      | normal => exact ih
      | broke | returned _ => exact pure_woven woven _

omit host in
theorem evalSuperclass_woven (name : Token) (superclass : Option Expr) :
    P (ev.evalSuperclass name superclass) := by
  cases superclass with
  | none => exact pure_woven woven _
  | some e =>
    refine woven.bind (parts (.expr e) trivial) fun v => ?_
    cases v with
    | classRef c => exact pure_woven woven _
    | _ => exact fail_woven woven _

omit host in
theorem execRule_woven (s : Stmt) (modest : (Task.stmt s).Modest) : P (ev.execRule s) := by
  cases s with
  | breakLoop _ => exact pure_woven woven _
  | function f => exact woven.own (.execFunction f) (.execFunction f)
  | expression e => exact woven.bind (parts (.expr e) trivial) fun _ => pure_woven woven _
  | print e =>
    refine woven.bind (parts (.expr e) trivial) fun v => ?_
    exact woven.bind (woven.print v) fun _ => pure_woven woven _
  | var name initializer =>
    refine woven.bind (evalOptional_woven woven parts initializer) fun v => woven.own ?_ ?_
    · exact (Run.OnHeap.define name v).bind fun _ => .pure _
    · exact (Run.Calm.define name v).bind fun _ => .pure _
  | block body =>
    refine woven.bind (woven.own .currentScope .currentScope) fun outer => ?_
    refine woven.bind (newScope_woven woven _ _) fun scope => ?_
    exact woven.inScope scope (sequence_woven woven parts body)
  | conditional condition thenBranch elseBranch =>
    refine woven.bind (parts (.expr condition) trivial) fun v => ?_
    cases v.isTruthy with
    | true => exact parts (.stmt thenBranch) trivial
    | false =>
      cases elseBranch with
      | none => exact pure_woven woven _
      | some s => exact parts (.stmt s) trivial
  | loop condition body => exact execLoop_woven woven parts condition body ev.rounds
  | returnFrom _ value =>
    change P (Flow.returned <$> ev.evalOptional value)
    rw [map_eq_pure_bind]
    exact woven.bind (evalOptional_woven woven parts value) fun _ => pure_woven woven _
  | classDecl name superclass methods => exact modest.elim

theorem rule_woven (t : Task) (modest : t.Modest) : P (ev.rule t) := by
  cases t with
  | expr e => exact evalRule_woven woven parts host e modest
  | stmt s => exact execRule_woven woven parts s modest
  | call callee arguments line => exact invokeRule_woven woven parts host callee arguments line
  | act deed line => exact modest.elim

omit host in
theorem runTopLevel_woven (program : List Stmt) : P (runTopLevel ev program) := by
  induction program with
  | nil => exact pure_woven woven _
  | cons s program ih =>
    refine woven.bind (parts (.stmt s) trivial) fun flow => ?_
    cases flow with
    | normal => exact ih
    | returned _ | broke => exact fail_woven woven _

end Rules

section Closure

variable {P : {α : Type} → Run α → Prop} (closed : Run.Closed P) {ev : Evaluator}
  (parts : ∀ t : Task, t.Own → P (ev.answer t))

include closed parts

theorem evalSet_closed (object : Expr) (name : Token) (e : Expr) :
    P (ev.evalSet object name e) := by
  refine closed.bind (parts (.expr object) trivial) fun v => ?_
  cases v with
  | instanceRef i =>
    refine closed.bind (parts (.expr e) trivial) fun v => closed.onHeap ?_
    exact (Run.OnHeap.setField i name v).bind fun _ => .pure v
  | _ => exact closed.onHeap (.fail _)

theorem execClass_closed (name : Token) (superclass : Option Expr) (methods : List Function) :
    P (ev.execClass name superclass methods) := by
  have above := evalSuperclass_woven closed.woven parts name superclass
  refine closed.bind (closed.onHeap (.define name .nil)) fun _ => closed.bind above fun parent => ?_
  exact closed.onHeap (.makeClass name methods parent)

theorem rule_closed (host : ∀ id arguments line, P (ev.callNative id arguments line)) {t : Task}
    (own : t.Own) : P (ev.rule t) := by
  by_cases modest : t.Modest
  · exact rule_woven closed.woven parts host t modest
  · cases t with
    | expr e =>
      cases e with
      | set object name e => exact evalSet_closed closed parts object name e
      | _ => exact absurd trivial modest
    | stmt s =>
      cases s with
      | classDecl name superclass methods =>
        exact execClass_closed closed parts name superclass methods
      | _ => exact absurd trivial modest
    | call callee arguments line => exact absurd trivial modest
    | act deed line => exact own.elim

theorem runTopLevel_closed (program : List Stmt) : P (runTopLevel ev program) :=
  runTopLevel_woven closed.woven parts program

end Closure

theorem withFuel_closed {P : {α : Type} → Run α → Prop} {A : Deed → Prop} (closed : Run.Closed P)
    (host : Run.Hosting A P) (n : Nat) {t : Task} (within : t.Within A) :
    P ((withFuel n).answer t) := by
  induction n generalizing t with
  | zero =>
    rw [answer_zero]
    exact closed.onHeap .outOfFuel
  | succ n ih =>
    rw [answer_succ]
    cases t with
    | act deed line => exact host.acts (fun t => ih) within line
    | _ =>
      exact rule_closed closed (fun t own => ih (own.within A)) (host.calls fun t => ih) trivial

end Evaluator

end Quill
