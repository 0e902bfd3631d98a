import Quill.Proofs.Resolution.Scoping

set_option autoImplicit false

namespace Quill

/-- A walk on its way: what it has found out, and its three registers. -/
structure Tour where
  resolution : Resolution
  context : Context

namespace Tour

def act (w : Tour) (f : Resolution → Resolution) : Tour :=
  { w with resolution := f w.resolution }

def setFunction (w : Tour) (kind : FunctionKind) (loopDepth : Nat) : Tour :=
  { w with context := { w.context with function := kind, loopDepth := loopDepth } }

def setClass (w : Tour) (kind : ClassKind) : Tour :=
  { w with context := { w.context with classKind := kind } }

def enterLoop (w : Tour) : Tour :=
  { w with context := { w.context with loopDepth := w.context.loopDepth + 1 } }

def leaveLoop (w : Tour) : Tour :=
  { w with context := { w.context with loopDepth := w.context.loopDepth - 1 } }

end Tour

mutual

def Expr.tour : Expr → Tour → Tour
  | .literal _, w => w
  | .grouping inner, w => inner.tour w
  | .unary _ operand, w => operand.tour w
  | .binary left _ right, w | .logical left _ right, w => right.tour (left.tour w)
  | .variable id name, w => w.act (·.readVariable id name)
  | .assign id name value, w => (value.tour w).act (·.bind id name.lexeme)
  | .call callee _ arguments, w => tourExprs arguments (callee.tour w)
  | .get object _, w => object.tour w
  | .set object _ value, w => object.tour (value.tour w)
  | .this id keyword, w => w.act (·.readThis w.context id keyword)
  | .super id keyword _, w => w.act (·.readSuper w.context id keyword)
  | .function f, w => f.tour .anonymous w

def tourExprs : List Expr → Tour → Tour
  | [], w => w
  | e :: rest, w => tourExprs rest (e.tour w)

def Function.tour (kind : FunctionKind) : Function → Tour → Tour
  | ⟨_, params, body⟩, w =>
    let inside := (w.setFunction kind 0).act fun r =>
      params.foldl Resolution.declareAndDefine r.openScope
    let left := (tourStmts body inside).act Resolution.closeScope
    left.setFunction w.context.function w.context.loopDepth

def tourMethods : List Function → Tour → Tour
  | [], w => w
  | f :: rest, w => tourMethods rest (f.tour f.methodKind w)

def tourSuperclass (name : Token) : Option Expr → Tour → Tour
  | none, w => w
  | some superclass, w =>
    let inside := (w.act (·.checkInheritance name superclass)).setClass .derived
    (superclass.tour inside).act (·.openWith "super")

def Stmt.tour : Stmt → Tour → Tour
  | .expression e, w | .print e, w => e.tour w
  | .var name none, w => w.act (·.declareAndDefine name)
  | .var name (some e), w => (e.tour (w.act (·.declare name))).act (·.define name)
  | .block body, w => (tourStmts body (w.act Resolution.openScope)).act Resolution.closeScope
  | .conditional condition thenBranch none, w => thenBranch.tour (condition.tour w)
  | .conditional condition thenBranch (some elseBranch), w =>
    elseBranch.tour (thenBranch.tour (condition.tour w))
  | .loop condition body, w => (body.tour (condition.tour w).enterLoop).leaveLoop
  | .breakLoop keyword, w => w.act (·.reportIf (w.context.loopDepth == 0) .breakOutsideLoop keyword)
  | .returnFrom keyword none, w => w.act (·.checkReturn w.context keyword false)
  | .returnFrom keyword (some e), w => e.tour (w.act (·.checkReturn w.context keyword true))
  | .function f, w =>
    let declared := match f.name with
      | some name => w.act (·.declareAndDefine name)
      | none => w
    f.tour .function declared
  | .classDecl name superclass methods, w =>
    let inside := (w.setClass .root).act (·.declareAndDefine name)
    let inside := (tourSuperclass name superclass inside).act (·.openWith "this")
    let left := (tourMethods methods inside).act Resolution.closeScope
    let left := if superclass.isSome then left.act Resolution.closeScope else left
    left.setClass w.context.classKind

def tourStmts : List Stmt → Tour → Tour
  | [], w => w
  | s :: rest, w => tourStmts rest (s.tour w)

end

namespace Tour

def Runs (tour : Tour → Tour) (f : Context → Resolution → Resolution) : Prop :=
  ∀ w, tour w = ⟨f w.context w.resolution, w.context⟩

end Tour

open Tour (Runs)

mutual

theorem Expr.tour_runs : ∀ e : Expr, Runs e.tour fun ctx => e.resolve ctx
  | .literal _ | .variable .. | .this .. | .super .. => fun _ => rfl
  | .grouping e | .unary _ e | .get e _ => e.tour_runs
  | .binary left _ right | .logical left _ right => fun w => by
    simp only [Expr.tour, Expr.resolve, left.tour_runs w, right.tour_runs _]
  | .assign _ _ value => fun w => by
    simp only [Expr.tour, Expr.resolve, value.tour_runs w, Tour.act]
  | .call callee _ arguments => fun w => by
    simp only [Expr.tour, Expr.resolve, callee.tour_runs w, tourExprs_runs arguments _]
  | .set object _ value => fun w => by
    simp only [Expr.tour, Expr.resolve, value.tour_runs w, object.tour_runs _]
  | .function f => f.tour_runs .anonymous

theorem tourExprs_runs : ∀ es : List Expr, Runs (tourExprs es) fun ctx => resolveExprs ctx es
  | [] => fun _ => rfl
  | e :: rest => fun w => by
    simp only [tourExprs, resolveExprs, e.tour_runs w, tourExprs_runs rest _]

theorem Function.tour_runs (kind : FunctionKind) :
    ∀ f : Function, Runs (f.tour kind) fun ctx => f.resolve (ctx.inFunction kind)
  | ⟨_, params, body⟩ => fun w => by
    simp only [Function.tour, Function.resolve, tourStmts_runs body _]
    rfl

theorem tourMethods_runs :
    ∀ fs : List Function, Runs (tourMethods fs) fun ctx => resolveMethods ctx fs
  | [] => fun _ => rfl
  | f :: rest => fun w => by
    simp only [tourMethods, resolveMethods, f.tour_runs f.methodKind w, tourMethods_runs rest _]

theorem tourSuperclass_runs (name : Token) :
    ∀ (superclass : Expr) (w : Tour), tourSuperclass name (some superclass) w =
      ⟨(superclass.resolve (w.context.inClass .derived)
        (w.resolution.checkInheritance name superclass)).openWith "super",
        w.context.inClass .derived⟩
  | superclass, w => by
    simp only [tourSuperclass, superclass.tour_runs _]
    rfl

theorem Stmt.tour_runs : ∀ s : Stmt, Runs s.tour fun ctx => s.resolve ctx
  | .expression e | .print e => e.tour_runs
  | .var _ none | .breakLoop _ | .returnFrom _ none => fun _ => rfl
  | .var name (some e) => fun w => by
    simp only [Stmt.tour, Stmt.resolve, e.tour_runs _, Tour.act]
  | .block body => fun w => by
    simp only [Stmt.tour, Stmt.resolve, tourStmts_runs body _, Tour.act]
  | .conditional condition thenBranch none => fun w => by
    simp only [Stmt.tour, Stmt.resolve, condition.tour_runs w, thenBranch.tour_runs _]
  | .conditional condition thenBranch (some elseBranch) => fun w => by
    simp only [Stmt.tour, Stmt.resolve, condition.tour_runs w, thenBranch.tour_runs _,
      elseBranch.tour_runs _]
  -- The depth is counted down again, not put back.
  | .loop condition body => fun w => by
    simp only [Stmt.tour, Stmt.resolve, condition.tour_runs w, body.tour_runs _]
    rfl
  | .returnFrom keyword (some e) => fun w => by
    simp only [Stmt.tour, Stmt.resolve, e.tour_runs _, Tour.act]
  | .function ⟨none, params, body⟩ => Function.tour_runs .function ⟨none, params, body⟩
  | .function ⟨some name, params, body⟩ => fun w =>
    Function.tour_runs .function ⟨some name, params, body⟩ (w.act (·.declareAndDefine name))
  | .classDecl name none methods => fun w => by
    simp only [Stmt.tour, tourSuperclass, tourMethods_runs methods _]
    rfl
  | .classDecl name (some superclass) methods => fun w => by
    simp only [Stmt.tour, tourSuperclass_runs name superclass _, tourMethods_runs methods _]
    rfl

theorem tourStmts_runs : ∀ body : List Stmt, Runs (tourStmts body) fun ctx => resolveStmts ctx body
  | [] => fun _ => rfl
  | s :: rest => fun w => by
    simp only [tourStmts, resolveStmts, s.tour_runs w, tourStmts_runs rest _]

end

namespace Tour

/-- A stretch of the walk that meets no references but some and declares no names but some has
restored all the rest. -/
structure Restores (references : List Reference) (names : List Token) (before after : Tour) :
    Prop where
  context : after.context = before.context
  height : after.resolution.scopes.length = before.resolution.scopes.length
  outer : after.resolution.scopes.tail = before.resolution.scopes.tail
  kept : ∀ x, (before.resolution.declaredHere x).isSome → (after.resolution.declaredHere x).isSome
  gained : ∀ x, (after.resolution.declaredHere x).isSome →
    (before.resolution.declaredHere x).isSome ∨ x ∈ names.map Token.lexeme
  errors : before.resolution.errors.reverse <+: after.resolution.errors.reverse
  distances : ∀ id, id ∉ references.map (·.id) →
    after.resolution.distances[id]? = before.resolution.distances[id]?

theorem Restores.of_runs {references : List Reference} {names : List Token} {tour : Tour → Tour}
    {f : Context → Resolution → Resolution} (runs : Runs tour f)
    (stretch : ∀ ctx, Resolution.Local references (f ctx))
    (scopes : ∀ ctx r, (f ctx r).scopes = names.foldl withName r.scopes) (w : Tour) :
    Restores references names w (tour w) := by
  obtain ⟨r, ctx⟩ := w
  rw [runs]
  have after := scopes ctx r
  have found (inside : r.scopes ≠ []) := Resolution.declaredHere_after after inside
  have outside (none : r.scopes = []) (x : String) : (f ctx r).declaredHere x = Option.none := by
    unfold Resolution.declaredHere
    rw [(Resolution.scopes_after after).mpr none]
  refine ⟨rfl, (stretch ctx).height r, (stretch ctx).outer r, fun x some => ?_, fun x some => ?_,
    List.reverse_prefix.mpr ((stretch ctx).suffix r), ((stretch ctx).walks r).distances⟩
  · have inside : r.scopes ≠ [] := fun none => by simp [Resolution.declaredHere, none] at some
    change ((f ctx r).declaredHere x).isSome
    rw [found inside]
    split
    · rfl
    · exact some
  · by_cases none : r.scopes = []
    · simp [outside none] at some
    · change ((f ctx r).declaredHere x).isSome at some
      rw [found none] at some
      split at some
      next own => exact .inr own
      next => exact .inl some

end Tour

open Tour (Restores)

theorem tourStmts_restores (body : List Stmt) (w : Tour) :
    Restores (stmtReferences body) (declarationsOf body) w (tourStmts body w) :=
  .of_runs (tourStmts_runs body) (fun ctx => resolveStmts_local ctx body)
    (fun ctx => (resolveStmts_declares ctx [] body).scopes) w

theorem tourStmts_program (body : List Stmt) :
    (tourStmts body ⟨.start, .top⟩).resolution.result = resolveProgram body ∧
      (tourStmts body ⟨.start, .top⟩).context = .top ∧
      (tourStmts body ⟨.start, .top⟩).resolution.scopes = [] := by
  have restored := tourStmts_restores body ⟨.start, .top⟩
  refine ⟨?_, restored.context, List.length_eq_zero_iff.mp restored.height⟩
  rw [tourStmts_runs]
  rfl

/-- Every node is resolved in the registers it is found in and leaves them as they were, whether or
not something is wrong with it: a statement adds to the innermost scope no names but those it
declares there, and an expression changes no scope. -/
theorem resolution_restores :
    (∀ (s : Stmt) (w : Tour),
      (s.tour w).resolution = s.resolve w.context w.resolution ∧
      Restores s.references s.declarations w (s.tour w)) ∧
    ∀ (e : Expr) (w : Tour),
      (e.tour w).resolution = e.resolve w.context w.resolution ∧
      (e.tour w).resolution.scopes = w.resolution.scopes ∧
      Restores e.references [] w (e.tour w) := by
  constructor
  · intro s w
    refine ⟨by rw [s.tour_runs], ?_⟩
    exact .of_runs s.tour_runs (fun ctx => s.resolve_local ctx)
      (fun ctx => (s.resolve_declares ctx []).scopes) w
  · intro e w
    refine ⟨by rw [e.tour_runs], ?_, ?_⟩
    · rw [e.tour_runs]
      exact (e.resolve_checks w.context []).scopes w.resolution
    · refine .of_runs e.tour_runs (fun ctx => e.resolve_local ctx) (fun ctx r => ?_) w
      exact (e.resolve_checks ctx []).scopes r

end Quill
