import Quill.Proofs.Evaluator.Lawful
import Quill.Proofs.Resolution.Locality

set_option autoImplicit false

namespace Quill

/-- Resolution finds nothing wrong with code in a context, with some scopes around it. -/
def Piece.Passes (ctx : Context) (p : Piece) : Prop :=
  ∃ r : Resolution, (p.resolve ctx r).errors = r.errors

def Piece.Passed (p : Piece) : Prop :=
  ∃ ctx, p.Passes ctx

namespace Piece.Passed

variable {p p' q : Piece}

theorem one (passed : p.Passed) (mem : q ∈ [p]) : q.Passed := by
  rw [List.mem_singleton.mp mem]
  exact passed

theorem two (first : p.Passed) (second : p'.Passed) (mem : q ∈ [p, p']) : q.Passed := by
  rcases List.mem_cons.mp mem with rfl | mem
  · exact first
  · exact second.one mem

theorem three {p'' : Piece} (first : p.Passed) (second : p'.Passed) (third : p''.Passed)
    (mem : q ∈ [p, p', p'']) : q.Passed := by
  rcases List.mem_cons.mp mem with rfl | mem
  · exact first
  · exact second.two third mem

end Piece.Passed

namespace Piece.Passes

open Resolution

variable {ctx ctx' : Context}

theorem passed {p : Piece} (passes : Passes ctx p) : p.Passed :=
  ⟨ctx, passes⟩

theorem head {s : Stmt} {rest : List Stmt} (passes : Passes ctx (.stmts (s :: rest))) :
    Passes ctx (.stmt s) := by
  obtain ⟨r, silent⟩ := passes
  exact ⟨r, ((s.resolve_local ctx).silent (resolveStmts_local ctx rest) silent).1⟩

theorem tail {s : Stmt} {rest : List Stmt} (passes : Passes ctx (.stmts (s :: rest))) :
    Passes ctx (.stmts rest) := by
  obtain ⟨r, silent⟩ := passes
  exact ⟨_, ((s.resolve_local ctx).silent (resolveStmts_local ctx rest) silent).2⟩

theorem mem {s : Stmt} {body : List Stmt} (passes : Passes ctx (.stmts body)) (mem : s ∈ body) :
    Passes ctx (.stmt s) := by
  induction body with
  | nil => cases mem
  | cons s' body ih =>
    rcases List.mem_cons.mp mem with rfl | mem
    · exact passes.head
    · exact ih passes.tail mem

theorem block {body : List Stmt} (passes : Passes ctx (.stmt (.block body))) :
    Passes ctx (.stmts body) := by
  obtain ⟨r, silent⟩ := passes
  exact ⟨r.openScope, silent⟩

theorem condition {condition : Expr} {thenBranch : Stmt} {elseBranch : Option Stmt}
    (passes : Passes ctx (.stmt (.conditional condition thenBranch elseBranch))) :
    Passes ctx (.expr condition) ∧ Passes ctx (.stmt thenBranch) ∧
      ∀ s ∈ elseBranch, Passes ctx (.stmt s) := by
  obtain ⟨r, silent⟩ := passes
  have first := condition.resolve_local ctx
  have second := thenBranch.resolve_local ctx
  cases elseBranch with
  | none =>
    have both := first.silent second silent
    exact ⟨⟨r, both.1⟩, ⟨_, both.2⟩, fun s mem => by cases mem⟩
  | some s =>
    have all := (first.trans second).silent (s.resolve_local ctx) silent
    have both := first.silent second all.1
    refine ⟨⟨r, both.1⟩, ⟨_, both.2⟩, ?_⟩
    rintro _ ⟨⟩
    exact ⟨_, all.2⟩

theorem loop {condition : Expr} {body : Stmt}
    (passes : Passes ctx (.stmt (.loop condition body))) :
    Passes ctx (.expr condition) ∧ Passes ctx.inLoop (.stmt body) := by
  obtain ⟨r, silent⟩ := passes
  have both := (condition.resolve_local ctx).silent (body.resolve_local ctx.inLoop) silent
  exact ⟨⟨r, both.1⟩, ⟨_, both.2⟩⟩

theorem breakLoop {keyword : Token} (passes : Passes ctx (.stmt (.breakLoop keyword))) :
    0 < ctx.loopDepth := by
  obtain ⟨r, silent⟩ := passes
  change (r.reportIf (ctx.loopDepth == 0) .breakOutsideLoop keyword).errors = r.errors at silent
  rcases Nat.eq_zero_or_pos ctx.loopDepth with zero | pos
  · rw [zero] at silent
    exact absurd silent (List.cons_ne_self _ _)
  · exact pos

theorem returned {keyword : Token} {value : Option Expr}
    (passes : Passes ctx (.stmt (.returnFrom keyword value))) :
    (∀ e ∈ value, Passes ctx (.expr e)) ∧
      (ctx.function = .function ∨ ctx.function = .method ∨ ctx.function = .initializer) ∧
      (ctx.function = .initializer → value = none) := by
  obtain ⟨r, silent⟩ := passes
  -- The check comes before the value is looked at.
  have checked : (r.checkReturn ctx keyword value.isSome).errors = r.errors ∧
      ∀ e ∈ value, Passes ctx (.expr e) := by
    cases value with
    | none => exact ⟨silent, fun e mem => by cases mem⟩
    | some e =>
      have both := (Resolution.Local.checkReturn ctx keyword true).silent (e.resolve_local ctx) silent
      refine ⟨both.1, ?_⟩
      rintro _ ⟨⟩
      exact ⟨_, both.2⟩
  refine ⟨checked.2, ?_⟩
  have fine := checked.1
  unfold Resolution.checkReturn at fine
  cases kind : ctx.function with
  | topLevel | anonymous =>
    rw [kind] at fine
    exact absurd fine (List.cons_ne_self _ _)
  | function => exact ⟨.inl rfl, fun h => by cases h⟩
  | method => exact ⟨.inr (.inl rfl), fun h => by cases h⟩
  | initializer =>
    refine ⟨.inr (.inr rfl), fun _ => ?_⟩
    rw [kind] at fine
    cases value with
    | none => rfl
    | some e => exact absurd fine (List.cons_ne_self _ _)

theorem pair {p q : Piece} {r : Resolution}
    (silent : (q.resolve ctx' (p.resolve ctx r)).errors = r.errors) :
    Passes ctx p ∧ Passes ctx' q := by
  have both := (p.resolve_local ctx).silent (q.resolve_local ctx') silent
  exact ⟨⟨r, both.1⟩, ⟨_, both.2⟩⟩

theorem expr_part {e : Expr} {q : Piece} (passes : Passes ctx (.expr e)) (mem : q ∈ e.parts) :
    q.Passed := by
  obtain ⟨r, silent⟩ := passes
  have one (inner : Expr) (silent : (inner.resolve ctx r).errors = r.errors)
      (mem : q ∈ [.expr inner]) : q.Passed := Passed.one (p := .expr inner) ⟨ctx, r, silent⟩ mem
  have two {p p' : Piece} (both : Passes ctx p ∧ Passes ctx p') (mem : q ∈ [p, p']) : q.Passed :=
    both.1.passed.two both.2.passed mem
  cases e with
  | literal | «variable» | this | super | function => cases mem
  | grouping inner | unary _ inner | get inner _ => exact one inner silent mem
  | assign id name value =>
    have bound := Local.bind ⟨.assignment, name, id⟩ name.lexeme
    exact one value ((value.resolve_local ctx).silent bound silent).1 mem
  | binary left _ right | logical left _ right =>
    exact two (pair (p := .expr left) (q := .expr right) silent) mem
  | call callee _ arguments => exact two (pair (p := .expr callee) (q := .exprs arguments) silent) mem
  | set object _ value =>
    exact two (pair (p := .expr value) (q := .expr object) silent).symm mem

theorem body {f : Function} (passes : Passes ctx (.function f)) : Passes ctx (.stmts f.body) := by
  obtain ⟨name, params, body⟩ := f
  obtain ⟨r, silent⟩ := passes
  have both := (Local.declareAll params).silent (r := r.openScope) (resolveStmts_local ctx body) silent
  exact ⟨_, both.2⟩

theorem named {f : Function} (passes : Passes ctx (.stmt (.function f))) :
    Passes (ctx.inFunction .function) (.function f) := by
  obtain ⟨name, params, body⟩ := f
  obtain ⟨r, silent⟩ := passes
  cases name with
  | none => exact ⟨r, silent⟩
  | some name =>
    have inner := Function.resolve_local (ctx.inFunction .function) ⟨some name, params, body⟩
    exact ⟨_, ((Local.declareAndDefine name).silent inner silent).2⟩

theorem classDecl {name : Token} {superclass : Option Expr} {methods : List Function}
    (passes : Passes ctx (.stmt (.classDecl name superclass methods))) :
    (∀ e ∈ superclass, Passes (ctx.inClass .derived) (.expr e)) ∧
      ∃ kind, Passes (ctx.inClass kind) (.functions methods) := by
  obtain ⟨r, silent⟩ := passes
  have this := Local.mark "this" true
  cases superclass with
  | none =>
    have inner := this.trans (resolveMethods_local (ctx.inClass .root) methods)
    have outer := ((Local.declareAndDefine name).silent inner.enclosed silent).2
    refine ⟨fun e mem => ?_, .root, ?_⟩
    · cases mem
    · exact ⟨_, (this.silent (resolveMethods_local (ctx.inClass .root) methods)
        (r := (r.declareAndDefine name).openScope) outer).2⟩
  | some e =>
    have methodsWalk := resolveMethods_local (ctx.inClass .derived) methods
    have inner := this.trans methodsWalk
    have above := (Local.mark "super" true).trans inner.enclosed
    have first := (Local.inheriting name e).trans (e.resolve_local (ctx.inClass .derived))
    have both := first.silent above.enclosed silent
    refine ⟨?_, .derived, ?_⟩
    · rintro _ ⟨⟩
      exact ⟨_, ((Local.inheriting name e).silent (e.resolve_local (ctx.inClass .derived)) both.1).2⟩
    · have around := ((Local.mark "super" true).silent inner.enclosed both.2).2
      exact ⟨_, (this.silent methodsWalk around).2⟩

theorem stmt_part {s : Stmt} {q : Piece} (passes : Passes ctx (.stmt s)) (mem : q ∈ s.parts) :
    q.Passed := by
  cases s with
  | breakLoop | function => cases mem
  | expression e | print e => exact Passed.one (p := .expr e) ⟨ctx, passes⟩ mem
  | var name value =>
    cases value with
    | none => cases mem
    | some e =>
      obtain ⟨r, silent⟩ := passes
      have first := (Local.declare name).trans (e.resolve_local ctx)
      have early := (first.silent (Local.define name) silent).1
      have value := ((Local.declare name).silent (e.resolve_local ctx) early).2
      exact Passed.one (p := .expr e) ⟨ctx, _, value⟩ mem
  | block body => exact passes.block.passed.one mem
  | conditional condition thenBranch elseBranch =>
    obtain ⟨first, second, third⟩ := passes.condition
    cases elseBranch with
    | none => exact first.passed.two second.passed mem
    | some s => exact first.passed.three second.passed (third s rfl).passed mem
  | loop condition body => exact passes.loop.1.passed.two passes.loop.2.passed mem
  | returnFrom keyword value =>
    cases value with
    | none => cases mem
    | some e => exact (passes.returned.1 e rfl).passed.one mem
  | classDecl name superclass methods =>
    obtain ⟨above, kind, own⟩ := passes.classDecl
    cases superclass with
    | none => exact own.passed.one mem
    | some e => exact (above e rfl).passed.two own.passed mem

theorem methods {f : Function} {rest : List Function} (passes : Passes ctx (.functions (f :: rest))) :
    Passes (ctx.inFunction f.methodKind) (.function f) ∧ Passes ctx (.functions rest) := by
  obtain ⟨r, silent⟩ := passes
  exact pair (p := .function f) (q := .functions rest) silent

theorem part {p q : Piece} (passes : Passes ctx p) (mem : q ∈ p.parts) : q.Passed := by
  cases p with
  | expr e => exact passes.expr_part mem
  | stmt s => exact passes.stmt_part mem
  | function f => cases mem
  | exprs es =>
    cases es with
    | nil => cases mem
    | cons e rest =>
      obtain ⟨r, silent⟩ := passes
      have both := pair (p := .expr e) (q := .exprs rest) silent
      exact both.1.passed.two both.2.passed mem
  | stmts body =>
    cases body with
    | nil => cases mem
    | cons s rest => exact passes.head.passed.two passes.tail.passed mem
  | functions fs =>
    cases fs with
    | nil => cases mem
    | cons f rest => exact passes.methods.2.passed.one mem

end Piece.Passes

/-- What a statement may do to what is around it. -/
def Flow.Fits (ctx : Context) : Flow → Prop
  | .normal => True
  | .broke => 0 < ctx.loopDepth
  | .returned v =>
    (ctx.function = .function ∨ ctx.function = .method ∨ ctx.function = .initializer) ∧
      (ctx.function = .initializer → v = .nil)

def Run.Gives {α : Type} (P : α → Prop) (x : Run α) : Prop :=
  ∀ m a m', x m = .ok a m' → P a

namespace Run.Gives

variable {α β : Type} {P : α → Prop} {x : Run α}

theorem any (x : Run α) : Gives (fun _ => True) x :=
  fun _ _ _ _ => trivial

theorem pure {a : α} (holds : P a) : Gives P (Pure.pure a : Run α) := by
  intro m a' m' result
  cases result
  exact holds

theorem fail (e : Error) : Gives P (Run.fail e : Run α) := by
  intro m a m' result
  cases result

theorem outOfFuel : Gives P (Run.outOfFuel : Run α) := by
  intro m a m' result
  cases result

theorem bind {Q : β → Prop} {f : α → Run β} (first : Gives P x) (next : ∀ a, P a → Gives Q (f a)) :
    Gives Q (x >>= f) := by
  intro m b m' result
  rcases Run.bind_cases result with ⟨a, m₁, early, later⟩ | ⟨_, _, _, failed⟩
  · exact next a (first m a m₁ early) m₁ b m' later
  · cases failed

theorem behind {Q : β → Prop} {f : α → Run β} (next : ∀ a, Gives Q (f a)) : Gives Q (x >>= f) :=
  (any x).bind fun a _ => next a

theorem inScope (s : ScopeId) (inner : Gives P x) : Gives P (Run.inScope s x) := by
  intro m a m' result
  unfold Run.inScope at result
  dsimp only at result
  cases early : x { m with scope := s } with
  | ok a' m₁ =>
    rw [early] at result
    cases result
    exact inner _ a m₁ early
  | error halt m₁ =>
    rw [early] at result
    cases result

end Run.Gives

def Evaluator.Obeys (ev : Evaluator) : Prop :=
  ∀ ctx s, Piece.Passes ctx (.stmt s) → (ev.exec s).Gives (Flow.Fits ctx)

namespace Evaluator.Obeys

open Run.Gives

variable {ev : Evaluator} {ctx : Context}

theorem sequence (obeys : ev.Obeys) {body : List Stmt} (passes : Piece.Passes ctx (.stmts body)) :
    (ev.sequence body).Gives (Flow.Fits ctx) := by
  induction body with
  | nil => exact pure trivial
  | cons s body ih =>
    refine (obeys ctx s passes.head).bind fun flow fits => ?_
    cases flow with
    | normal => exact ih passes.tail
    | returned _ | broke => exact pure fits

theorem execLoop (obeys : ev.Obeys) {condition : Expr} {body : Stmt}
    (passes : Piece.Passes ctx.inLoop (.stmt body)) (n : Nat) :
    (ev.execLoop condition body n).Gives (Flow.Fits ctx) := by
  induction n with
  | zero => exact outOfFuel
  | succ n ih =>
    refine behind fun v => ?_
    cases v.isTruthy with
    | false => exact pure trivial
    | true =>
      refine (obeys ctx.inLoop body passes).bind fun flow fits => ?_
      cases flow with
      | normal => exact ih
      | broke => exact pure trivial
      | returned v => exact pure fits

theorem execRule (obeys : ev.Obeys) (s : Stmt) (passes : Piece.Passes ctx (.stmt s)) :
    (ev.execRule s).Gives (Flow.Fits ctx) := by
  cases s with
  | expression _ => exact behind fun _ => pure trivial
  | print _ => exact behind fun _ => behind fun _ => pure trivial
  | var _ _ => exact behind fun _ => behind fun _ => pure trivial
  | block body =>
    exact behind fun _ => behind fun scope => (obeys.sequence passes.block).inScope scope
  | conditional condition thenBranch elseBranch =>
    obtain ⟨-, thenPasses, elsePasses⟩ := passes.condition
    refine behind fun v => ?_
    cases v.isTruthy with
    | true => exact obeys ctx thenBranch thenPasses
    | false =>
      cases elseBranch with
      | none => exact pure trivial
      | some s => exact obeys ctx s (elsePasses s rfl)
  | loop condition body => exact obeys.execLoop passes.loop.2 ev.rounds
  | breakLoop keyword => exact pure passes.breakLoop
  | returnFrom keyword value =>
    obtain ⟨-, kind, bare⟩ := passes.returned
    change ((Flow.returned <$> ev.evalOptional value : Run Flow)).Gives _
    rw [map_eq_pure_bind]
    -- In an initializer resolution has let pass a bare `return` only.
    have given : (ev.evalOptional value).Gives fun v => ctx.function = .initializer → v = .nil := by
      intro m v m' result initializer
      rw [bare initializer] at result
      cases result
      rfl
    exact given.bind fun v fits => pure ⟨kind, fits⟩
  | function f =>
    change (Evaluator.execFunction f).Gives _
    unfold Evaluator.execFunction
    cases f.name with
    | none => exact fail _
    | some name => exact behind fun _ => behind fun _ => behind fun _ => pure trivial
  | classDecl name superclass methods =>
    refine behind fun _ => behind fun _ => behind fun _ => behind fun _ => behind fun _ => ?_
    exact behind fun _ => pure trivial

end Evaluator.Obeys

theorem Evaluator.obeys_withFuel (n : Nat) : (withFuel n).Obeys := by
  induction n with
  | zero => exact fun ctx s _ => .outOfFuel
  | succ n ih => exact fun ctx s passes => ih.execRule s passes

theorem Function.methodKind_initializer {f : Function}
    (named : (f.label == initializerName) = true) : f.methodKind = .initializer := by
  unfold Function.label at named
  unfold Function.methodKind
  cases name : f.name with
  | none =>
    rw [name] at named
    cases named
  | some t =>
    rw [name] at named
    exact if_pos named

def Realm.passed : Realm where
  Code := Piece.Passed
  Callee f isInitializer := ∃ ctx, Piece.Passes ctx (.stmts f.body) ∧ ctx.loopDepth = 0 ∧
    (isInitializer = true → ctx.function = .initializer)
  Host := Native.Discreet
  Act _ := False
  Ref _ := True
  Fault _ := True
  parts := by
    rintro p q ⟨ctx, passes⟩ mem
    exact passes.part mem
  anonymous := by
    rintro f ⟨ctx, r, silent⟩
    have passes : Piece.Passes (ctx.inFunction .anonymous) (.function f) := ⟨r, silent⟩
    exact ⟨_, passes.body, rfl, fun h => by cases h⟩
  named := by
    rintro f ⟨ctx, passes⟩
    exact ⟨_, passes.named.body, rfl, fun h => by cases h⟩
  method := by
    rintro f rest ⟨ctx, passes⟩
    exact ⟨_, passes.methods.1.body, rfl, Function.methodKind_initializer⟩
  body := by
    rintro f isInitializer ⟨ctx, passes, -⟩
    exact ⟨ctx, passes⟩
  acts discreet := discreet
  refs _ _ := trivial
  dynamic _ := trivial
  host _ _ := trivial
  stays act := act.elim

theorem Realm.passed_quiet : Realm.passed.Quiet :=
  fun _ => id

end Quill
