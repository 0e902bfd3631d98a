import Quill.Proofs.Evaluator.Realm

set_option autoImplicit false

namespace Quill

structure Evaluator.Lawful (R : Realm) (ev ev' : Evaluator) : Prop where
  rounds : ev'.rounds = ev.rounds
  answers : ∀ t, R.Task t → Run.Lawful R (ev.answer t) (ev'.answer t)

namespace Run.Lawful

variable {R : Realm}

theorem bindMethod (method : FunctionId) (i : InstanceId) :
    Lawful R (Evaluator.bindMethod method i) (Evaluator.bindMethod method i) := by
  refine object_bind fun h closure here found => ?_
  exact (newScope _ _).bind fun scope => newClosure (here.closures method closure found)

theorem gentle : Run.Gentle fun x => Lawful R x x where
  pure := pure
  fail ordinary := fail (R.dynamic ordinary.dynamic)
  object f := by
    have read := object_bind (R := R) (p := f) (f := Pure.pure) fun _ a _ _ => pure a
    rwa [bind_pure] at read
  ask ordinary := ask (fun m e failed => (ordinary m.heap e failed).dynamic) fun _ _ _ => rfl
  bindMethod := bindMethod
  bind := bind

theorem superBindings {id : RefId} (ref : R.Ref id) (keyword : Token) :
    Lawful R (Run.ask (Evaluator.superBindings id keyword))
      (Run.ask (Evaluator.superBindings id keyword)) := by
  refine ask (fun _ _ failed => (Evaluator.superBindings_ordinary failed).dynamic)
    fun m table agree => ?_
  unfold Evaluator.superBindings Machine.withTable
  dsimp only
  rw [agree id ref]

theorem evalFunction {f : Function} (callee : R.Callee f false) :
    Lawful R (Evaluator.evalFunction f) (Evaluator.evalFunction f) :=
  currentScope.bind fun _ => (newClosure callee).map _

theorem execFunction {f : Function} (callee : R.Callee f false) :
    Lawful R (Evaluator.execFunction f) (Evaluator.execFunction f) := by
  unfold Evaluator.execFunction
  cases f.name with
  | none => exact failInternally _
  | some name =>
    refine currentScope.bind fun scope => (newClosure callee).bind fun id => ?_
    exact (define name _).bind fun _ => pure _

theorem methodScope (parent : Option ClassId) :
    Lawful R (Evaluator.methodScope parent) (Evaluator.methodScope parent) := by
  cases parent with
  | none => exact currentScope
  | some c => exact currentScope.bind fun _ => newScope _ _

theorem methodTable (scope : ScopeId) {methods : List Function} (code : R.Code (.functions methods))
    (table : Bindings FunctionId) :
    Lawful R (Evaluator.methodTable scope methods table)
      (Evaluator.methodTable scope methods table) := by
  induction methods generalizing table with
  | nil => exact pure table
  | cons f methods ih =>
    have rest : R.Code (.functions methods) := R.parts code List.mem_cons_self
    exact (newClosure (R.method code)).bind fun id => ih rest _

end Run.Lawful

namespace Evaluator.Lawful

open Run.Lawful

variable {R : Realm} {ev ev' : Evaluator}

theorem eval (lawful : Lawful R ev ev') {e : Expr} (code : R.Code (.expr e)) :
    Run.Lawful R (ev.eval e) (ev'.eval e) :=
  lawful.answers (.expr e) code

theorem exec (lawful : Lawful R ev ev') {s : Stmt} (code : R.Code (.stmt s)) :
    Run.Lawful R (ev.exec s) (ev'.exec s) :=
  lawful.answers (.stmt s) code

theorem sequence (lawful : Lawful R ev ev') {body : List Stmt} (code : R.Code (.stmts body)) :
    Run.Lawful R (ev.sequence body) (ev'.sequence body) := by
  induction body with
  | nil => exact pure _
  | cons s body ih =>
    have first : R.Code (.stmt s) := R.parts code List.mem_cons_self
    have rest : R.Code (.stmts body) := R.parts code (List.mem_cons_of_mem _ List.mem_cons_self)
    refine (lawful.exec first).bind fun flow => ?_
    cases flow with
    | normal => exact ih rest
    | returned _ | broke => exact pure _

theorem callClosure (lawful : Lawful R ev ev') (id : FunctionId) (arguments : List Value)
    (line : Nat) :
    Run.Lawful R (ev.callClosure id arguments line) (ev'.callClosure id arguments line) := by
  refine object_bind fun h closure here found => ?_
  have body : R.Code (.stmts closure.code.body) := R.body (here.closures id closure found)
  have params : Run.Lawful R _ _ :=
    ask (f := fun _ => bindParams closure.code.params arguments {})
      (fun _ _ => bindParams_dynamic) fun _ _ _ => rfl
  refine params.bind fun vars => (newScope vars _).bind fun scope => ?_
  exact ((lawful.sequence body).inScope scope).bind fun flow => gentle.resultOf closure line flow

theorem construct (lawful : Lawful R ev ev') (c : ClassId) (arguments : List Value) (line : Nat) :
    Run.Lawful R (ev.construct c arguments line) (ev'.construct c arguments line) := by
  refine (newInstance c).bind fun i => (askOk _ fun _ _ => rfl).bind fun method => ?_
  cases method with
  | none => exact pure _
  | some method =>
    refine (Run.Lawful.bindMethod method i).bind fun bound => ?_
    exact (lawful.callClosure bound arguments line).bind fun _ => pure _

theorem callNative (lawful : Lawful R ev ev') (id : NativeId) (arguments : List Value)
    (line : Nat) :
    Run.Lawful R (ev.callNative id arguments line) (ev'.callNative id arguments line) := by
  refine object_bind fun h native here found => ?_
  cases reply : native.respond arguments line with
  | value v => exact pure v
  | error e => exact fail (R.host (here.natives id native found) reply)
  | invoke callee arguments => exact lawful.answers (.call callee arguments line) trivial
  | now => exact readClock
  | act deed =>
    exact lawful.answers (.act deed line)
      (R.acts (here.natives id native found) arguments line deed reply)

theorem actRule (lawful : Lawful R ev ev') (loud : ¬ R.Quiet) (line : Nat) {deed : Deed}
    (stays : deed.Stays R.toRegion R.Fault) (blind : R.Blind → deed.Blind) :
    Run.Lawful R (ev.actRule line deed) (ev'.actRule line deed) := by
  induction deed with
  | done result =>
    cases result with
    | ok v => exact pure v
    | error e => exact fail (stays e rfl)
  | change f next ih =>
    -- Neither the change nor what comes after it sees the table, so both runs go on alike.
    refine change_bind loud stays.1 (fun unseen v table => ?_)
      fun view => ih view (stays.2 view) fun unseen => (blind unseen).2.2.2 view
    exact ⟨(blind unseen).1 v table, congrArg (ev'.actRule line) ((blind unseen).2.1 v table)⟩
  | add name arity respond next _ ih =>
    exact (newNative stays.1).bind fun id => ih id (stays.2 id) fun unseen => (blind unseen).2 id
  | call callee arguments next ih =>
    refine attempt_bind (lawful.answers (.call callee arguments line) trivial) fun result known => ?_
    exact ih result (stays result known) fun unseen => blind unseen result
  | execute s next ih =>
    refine attempt_bind (lawful.exec stays.1) fun result known => ?_
    exact ih result (stays.2 result known) fun unseen => blind unseen result
  | evaluate e next ih =>
    refine attempt_bind (lawful.eval stays.1) fun result known => ?_
    exact ih result (stays.2 result known) fun unseen => blind unseen result

theorem invokeRule (lawful : Lawful R ev ev') (callee : Callable) (arguments : List Value)
    (line : Nat) :
    Run.Lawful R (ev.invokeRule callee arguments line) (ev'.invokeRule callee arguments line) := by
  cases callee with
  | function id => exact lawful.callClosure id arguments line
  | native id => exact lawful.callNative id arguments line
  | classRef id => exact lawful.construct id arguments line

theorem evalAll (lawful : Lawful R ev ev') {es : List Expr} (code : R.Code (.exprs es))
    (found : List Value) : Run.Lawful R (ev.evalAll es found) (ev'.evalAll es found) := by
  induction es generalizing found with
  | nil => exact pure _
  | cons e es ih =>
    have first : R.Code (.expr e) := R.parts code List.mem_cons_self
    have rest : R.Code (.exprs es) := R.parts code (List.mem_cons_of_mem _ List.mem_cons_self)
    exact (lawful.eval first).bind fun v => ih rest (v :: found)

theorem evalCall (lawful : Lawful R ev ev') {callee : Expr} (paren : Token) {arguments : List Expr}
    (first : R.Code (.expr callee)) (rest : R.Code (.exprs arguments)) :
    Run.Lawful R (ev.evalCall callee paren arguments) (ev'.evalCall callee paren arguments) := by
  refine (lawful.eval first).bind fun f => (lawful.evalAll rest []).bind fun values => ?_
  cases f.callable? with
  | none => exact failAt _ _
  | some callable =>
    refine (askOk _ fun _ _ => rfl).bind fun arity => ?_
    by_cases fits : values.length = arity
    · simp only [fits, if_true]
      exact (lawful.invokeRule callable values paren.line).oneDeeper paren.line
    · simp only [fits, if_false]
      exact failAt _ _

theorem evalRule (lawful : Lawful R ev ev') {e : Expr} (code : R.Code (.expr e)) :
    Run.Lawful R (ev.evalRule e) (ev'.evalRule e) := by
  have part {q : Piece} (mem : q ∈ e.parts) : R.Code q := R.parts code mem
  have ref {id : RefId} (mem : id ∈ (Piece.expr e).ids) : R.Ref id := R.refs code mem
  cases e with
  | literal _ => exact pure _
  | «variable» id name => exact readRef (ref List.mem_cons_self) name
  | this id keyword => exact readRef (ref List.mem_cons_self) keyword
  | super id keyword method => exact gentle.evalSuper (.superBindings (ref List.mem_cons_self) keyword) method
  | function f => exact .evalFunction (R.anonymous code)
  | grouping e => exact lawful.eval (part List.mem_cons_self)
  | unary operator e =>
    refine (lawful.eval (part List.mem_cons_self)).bind fun v => ?_
    exact ask (fun _ _ failed => (Operator.unary_ordinary failed).dynamic) fun _ _ _ => rfl
  | binary left operator right =>
    refine (lawful.eval (part List.mem_cons_self)).bind fun a => ?_
    refine (lawful.eval (part (List.mem_cons_of_mem _ List.mem_cons_self))).bind fun b => ?_
    exact ask (fun _ _ failed => (Operator.binary_ordinary failed).dynamic) fun _ _ _ => rfl
  | logical left operator right =>
    refine (lawful.eval (part List.mem_cons_self)).bind fun a => ?_
    by_cases decided : a.isTruthy == operator.is .orKw
    · simp only [decided, if_true]
      exact pure a
    · simp only [decided]
      exact lawful.eval (part (List.mem_cons_of_mem _ List.mem_cons_self))
  | assign id name e =>
    refine (lawful.eval (part List.mem_cons_self)).bind fun v => ?_
    exact (writeRef (ref List.mem_cons_self) name v).bind fun _ => pure v
  | call callee paren arguments =>
    exact lawful.evalCall paren (part List.mem_cons_self)
      (part (List.mem_cons_of_mem _ List.mem_cons_self))
  | get e name =>
    refine (lawful.eval (part List.mem_cons_self)).bind fun v => ?_
    cases v with
    | instanceRef i => exact gentle.property i name
    | _ => exact failAt _ _
  | set object name e =>
    refine (lawful.eval (part List.mem_cons_self)).bind fun v => ?_
    cases v with
    | instanceRef i =>
      refine (lawful.eval (part (List.mem_cons_of_mem _ List.mem_cons_self))).bind fun v => ?_
      exact (setField i name v).bind fun _ => pure v
    | _ => exact failAt _ _

theorem evalOptional (lawful : Lawful R ev ev') {e : Option Expr}
    (code : ∀ e' ∈ e, R.Code (.expr e')) :
    Run.Lawful R (ev.evalOptional e) (ev'.evalOptional e) := by
  cases e with
  | none => exact pure _
  | some e => exact lawful.eval (code e rfl)

theorem execLoop (lawful : Lawful R ev ev') {condition : Expr} {body : Stmt}
    (first : R.Code (.expr condition)) (inner : R.Code (.stmt body)) (n : Nat) :
    Run.Lawful R (ev.execLoop condition body n) (ev'.execLoop condition body n) := by
  induction n with
  | zero => exact outOfFuel
  | succ n ih =>
    refine (lawful.eval first).bind fun v => ?_
    cases v.isTruthy with
    | false => exact pure _
    | true =>
      refine (lawful.exec inner).bind fun flow => ?_
      cases flow with
      | normal => exact ih
      | broke | returned _ => exact pure _

theorem evalSuperclass (lawful : Lawful R ev ev') (name : Token) {superclass : Option Expr}
    (code : ∀ e ∈ superclass, R.Code (.expr e)) :
    Run.Lawful R (ev.evalSuperclass name superclass) (ev'.evalSuperclass name superclass) := by
  cases superclass with
  | none => exact pure _
  | some e =>
    refine (lawful.eval (code e rfl)).bind fun v => ?_
    cases v with
    | classRef c => exact pure _
    | _ => exact failAt _ _

theorem execClass (lawful : Lawful R ev ev') (name : Token) {superclass : Option Expr}
    {methods : List Function} (above : ∀ e ∈ superclass, R.Code (.expr e))
    (own : R.Code (.functions methods)) :
    Run.Lawful R (ev.execClass name superclass methods) (ev'.execClass name superclass methods) := by
  refine (define name .nil).bind fun _ => (lawful.evalSuperclass name above).bind fun parent => ?_
  refine (Run.Lawful.methodScope parent).bind fun scope => (Run.Lawful.methodTable scope own {}).bind fun table => ?_
  refine (newClass _).bind fun c => ?_
  exact (assignNearest name _).bind fun _ => pure _

theorem execRule (lawful : Lawful R ev ev') {s : Stmt} (code : R.Code (.stmt s)) :
    Run.Lawful R (ev.execRule s) (ev'.execRule s) := by
  have part {q : Piece} (mem : q ∈ s.parts) : R.Code q := R.parts code mem
  cases s with
  | breakLoop _ => exact pure _
  | function f => exact .execFunction (R.named code)
  | expression e => exact (lawful.eval (part List.mem_cons_self)).bind fun _ => pure _
  | print e =>
    exact (lawful.eval (part List.mem_cons_self)).bind fun v => (print v).bind fun _ => pure _
  | var name initializer =>
    have value : ∀ e ∈ initializer, R.Code (.expr e) := by
      rintro e rfl
      exact part List.mem_cons_self
    refine (lawful.evalOptional value).bind fun v => ?_
    exact (define name v).bind fun _ => pure _
  | block body =>
    refine currentScope.bind fun outer => (newScope {} outer).bind fun scope => ?_
    exact (lawful.sequence (part List.mem_cons_self)).inScope scope
  | conditional condition thenBranch elseBranch =>
    cases elseBranch with
    | none =>
      refine (lawful.eval (part List.mem_cons_self)).bind fun v => ?_
      cases v.isTruthy with
      | true => exact lawful.exec (part (List.mem_cons_of_mem _ List.mem_cons_self))
      | false => exact pure _
    | some s =>
      refine (lawful.eval (part List.mem_cons_self)).bind fun v => ?_
      cases v.isTruthy with
      | true => exact lawful.exec (part (List.mem_cons_of_mem _ List.mem_cons_self))
      | false =>
        exact lawful.exec (part (List.mem_cons_of_mem _ (List.mem_cons_of_mem _ List.mem_cons_self)))
  | loop condition body =>
    -- Both evaluators give a loop as many rounds.
    change Run.Lawful R (ev.execLoop condition body ev.rounds) (ev'.execLoop condition body ev'.rounds)
    rw [lawful.rounds]
    exact lawful.execLoop (part List.mem_cons_self)
      (part (List.mem_cons_of_mem _ List.mem_cons_self)) ev.rounds
  | returnFrom _ value =>
    have given : ∀ e ∈ value, R.Code (.expr e) := by
      rintro e rfl
      exact part List.mem_cons_self
    exact (lawful.evalOptional given).map Flow.returned
  | classDecl name superclass methods =>
    cases superclass with
    | none => exact lawful.execClass name (fun e mem => by cases mem) (part List.mem_cons_self)
    | some superclass =>
      have above : ∀ e ∈ some superclass, R.Code (.expr e) := by
        rintro e ⟨⟩
        exact part List.mem_cons_self
      exact lawful.execClass name above (part (List.mem_cons_of_mem _ List.mem_cons_self))

theorem rule (lawful : Lawful R ev ev') {t : Task} (within : R.Task t) :
    Run.Lawful R (ev.rule t) (ev'.rule t) := by
  cases t with
  | expr e => exact lawful.evalRule within
  | stmt s => exact lawful.execRule within
  | call callee arguments line => exact lawful.invokeRule callee arguments line
  | act deed line =>
    exact lawful.actRule (fun quiet => quiet deed within) line (R.stays within)
      fun blind => blind deed within

theorem runTopLevel (lawful : Lawful R ev ev') {program : List Stmt}
    (code : R.Code (.stmts program)) :
    Run.Lawful R (runTopLevel ev program) (runTopLevel ev' program) := by
  induction program with
  | nil => exact pure ()
  | cons s program ih =>
    have first : R.Code (.stmt s) := R.parts code List.mem_cons_self
    have rest : R.Code (.stmts program) := R.parts code (List.mem_cons_of_mem _ List.mem_cons_self)
    refine (lawful.exec first).bind fun flow => ?_
    cases flow with
    | normal => exact ih rest
    | returned _ | broke => exact failInternally _

end Evaluator.Lawful

theorem Evaluator.lawful_withFuel (R : Realm) (n : Nat) :
    Evaluator.Lawful R (.withFuel n) (.withFuel n) := by
  induction n with
  | zero =>
    refine ⟨rfl, fun t _ => ?_⟩
    cases t <;> exact .outOfFuel
  | succ n ih =>
    -- Each answer is one rule, given the answers that there is less fuel for.
    refine ⟨rfl, fun t within => ?_⟩
    have same : (withFuel (n + 1)).answer t = (withFuel n).rule t :=
      funext fun m => answer_withFuel_succ n t m
    rw [same]
    exact ih.rule within

theorem machineOf_interpret (fuel : Nat) (program : List Stmt) (m : Machine) :
    machineOf (interpret fuel program m) = machineOf (runTopLevel (.withFuel fuel) program m) := by
  unfold interpret
  cases runTopLevel (.withFuel fuel) program m with
  | ok _ m' =>
    dsimp only
    split <;> rfl
  | error halt m' => cases halt <;> rfl

theorem interpret_lawful {R : Realm} {program : List Stmt} (code : R.Code (.stmts program))
    (fuel : Nat) : Run.Lawful R (interpret fuel program) (interpret fuel program) := by
  have inner := (Evaluator.lawful_withFuel R fuel).runTopLevel code
  refine ⟨fun m here => ?_, fun m here => ?_, fun m e m' here failed => ?_,
    fun blind m table here agree => ?_⟩
  · rw [machineOf_interpret]
    exact inner.holds m here
  · rw [machineOf_interpret]
    exact inner.returns m here
  · unfold interpret at failed
    cases result : runTopLevel (.withFuel fuel) program m with
    | ok _ m₁ =>
      rw [result] at failed
      dsimp only at failed
      split at failed <;> cases failed
      exact R.dynamic trivial
    | error halt m₁ =>
      rw [result] at failed
      cases halt with
      | outOfFuel => cases failed
      | error e' =>
        cases failed
        split
        · exact R.dynamic trivial
        · exact inner.fault m e' m' here result
  · unfold interpret
    rw [inner.same blind m table here agree]
    cases runTopLevel (.withFuel fuel) program m with
    | ok _ m' =>
      change (if m'.sink.flushFails then _ else _) = withTable table (if m'.sink.flushFails then _ else _)
      rw [apply_ite (withTable table)]
      rfl
    | error halt m' => cases halt <;> rfl

theorem evaluate_lawful {R : Realm} {e : Expr} (code : R.Code (.expr e)) (fuel : Nat) :
    Run.Lawful R (evaluate fuel e) (evaluate fuel e) :=
  (Evaluator.lawful_withFuel R fuel).eval code

theorem execute_lawful {R : Realm} {s : Stmt} (code : R.Code (.stmt s)) (fuel : Nat) :
    Run.Lawful R (execute fuel s) (execute fuel s) :=
  (Evaluator.lawful_withFuel R fuel).exec code

end Quill
