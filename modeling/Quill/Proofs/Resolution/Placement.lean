import Quill.Proofs.Resolution.Sites

set_option autoImplicit false

namespace Quill

def BindingFault.isScoping : BindingFault → Bool
  | .redeclared | .ownInitializer => true
  | _ => false

def Error.isPlacement : Error → Bool
  | .binding fault _ => !fault.isScoping
  | _ => false

namespace Site

/-- The error for a site that breaks one of the rules on where things stand. -/
def fault? (s : Site) : Option Error :=
  match s.node with
  | .stmt (.breakLoop keyword) =>
    if s.around.find? (fun l => l = .loop || l.isRoutine) = some .loop then none
    else some (.binding .breakOutsideLoop keyword)
  | .stmt (.returnFrom keyword value) =>
    match s.around.find? Layer.isRoutine with
    | some .function => none
    | some (.method _ name) =>
      if name = initializerName ∧ value.isSome then
        some (.binding .returnValueFromInitializer keyword)
      else none
    | some .anonymous => some (.binding .returnFromAnonymous keyword)
    | _ => some (.binding .returnAtTopLevel keyword)
  | .expr (.this _ keyword) =>
    if (s.around.find? Layer.isMethod).isSome then none
    else some (.binding .thisOutsideClass keyword)
  | .expr (.super _ keyword _) =>
    match s.around.find? Layer.isMethod with
    | some (.method true _) => none
    | some _ => some (.binding .superWithoutSuperclass keyword)
    | none => some (.binding .superOutsideClass keyword)
  | .stmt (.classDecl name (some (.variable _ superName)) _) =>
    if superName.lexeme = name.lexeme then some (.binding .inheritsItself superName) else none
  | _ => none

theorem fault?_eq_none_iff (s : Site) : s.fault? = none ↔ s.Placed := by
  obtain ⟨around, node⟩ := s
  simp only [fault?, Placed]
  split
  next => simp
  next keyword value =>
    cases around.find? Layer.isRoutine with
    | none => simp
    | some l => cases l <;> simp
  next => simp only [ite_eq_left_iff, reduceCtorEq, imp_false, Classical.not_not, List.find?_isSome]
  next =>
    cases around.find? Layer.isMethod with
    | none => simp
    | some l => rcases l with _ | _ | _ | ⟨_ | _, _⟩ | _ <;> simp
  next => simp
  next => simp

theorem fault?_isPlacement {s : Site} {e : Error} (h : s.fault? = some e) : e.isPlacement := by
  obtain ⟨around, node⟩ := s
  simp only [fault?] at h
  repeat' split at h
  all_goals cases h <;> rfl

def Named (s : Site) : Prop :=
  ∀ name superclass methods, s.node = .stmt (.classDecl name (some superclass) methods) →
    ∃ id superName, superclass = .variable id superName

end Site

def Layer.functionKind : Option Layer → FunctionKind
  | some .function => .function
  | some (.method _ name) => if name = initializerName then .initializer else .method
  | some .anonymous => .anonymous
  | _ => .topLevel

def Layer.classKind : Option Layer → ClassKind
  | some (.method true _) => .derived
  | some _ => .root
  | none => .none

/-- A context says of the layers around a node what the rules ask for. -/
structure Context.Fits (ctx : Context) (around : List Layer) : Prop where
  loop : ctx.loopDepth = 0 ↔ around.find? (fun l => l = .loop || l.isRoutine) ≠ some .loop
  function : ctx.function = Layer.functionKind (around.find? Layer.isRoutine)
  classKind : ctx.classKind = Layer.classKind (around.find? Layer.isMethod)

namespace Context.Fits

variable {ctx : Context} {around : List Layer}

theorem top : Context.top.Fits [] :=
  ⟨by simp [Context.top], rfl, rfl⟩

theorem inLoop (fits : ctx.Fits around) : ctx.inLoop.Fits (.loop :: around) :=
  ⟨by simp [Context.inLoop], fits.function, fits.classKind⟩

theorem inBlock (fits : ctx.Fits around) : ctx.Fits (.block :: around) :=
  ⟨fits.loop, fits.function, fits.classKind⟩

theorem inFunction (fits : ctx.Fits around) :
    (ctx.inFunction .function).Fits (.function :: around) :=
  ⟨by simp [Context.inFunction, Layer.isRoutine], rfl, fits.classKind⟩

theorem inAnonymous (fits : ctx.Fits around) :
    (ctx.inFunction .anonymous).Fits (.anonymous :: around) :=
  ⟨by simp [Context.inFunction, Layer.isRoutine], rfl, fits.classKind⟩

theorem methodKind (f : Function) (inherits : Bool) :
    f.methodKind = Layer.functionKind (some (.method inherits f.label)) := by
  unfold Function.methodKind Function.label Layer.functionKind
  cases f.name with
  | none => rfl
  | some name => simp

theorem inMethod (ctx : Context) (around : List Layer) (f : Function) (inherits : Bool) :
    ((ctx.inClass (if inherits then .derived else .root)).inFunction f.methodKind).Fits
      (.method inherits f.label :: around) := by
  refine ⟨by simp [Context.inFunction, Layer.isRoutine], methodKind f inherits, ?_⟩
  cases inherits <;> rfl

end Context.Fits

namespace Resolution

@[simp] theorem bind_errors (r : Resolution) (id : RefId) (name : String) :
    (r.bind id name).errors = r.errors := by
  unfold Resolution.bind
  split <;> rfl

def misplaced (r : Resolution) : List Error :=
  (r.errors.filter Error.isPlacement).reverse

def Reports (sites : List Site) (f : Resolution → Resolution) : Prop :=
  (∀ s ∈ sites, s.Named) → ∀ r, (f r).misplaced = r.misplaced ++ sites.filterMap Site.fault?

namespace Reports

variable {a b : List Site} {f g : Resolution → Resolution}

theorem trans (first : Reports a f) (second : Reports b g) :
    Reports (a ++ b) fun r => g (f r) := by
  intro named r
  rw [List.forall_mem_append] at named
  rw [second named.2, first named.1, List.filterMap_append, List.append_assoc]

theorem visit {site : Site} (fine : site.fault? = none) (rest : Reports a f) :
    Reports (site :: a) f := by
  intro named r
  rw [List.forall_mem_cons] at named
  rw [rest named.2, List.filterMap_cons_none fine]

theorem of_misplaced (same : ∀ r, (f r).misplaced = r.misplaced) : Reports [] f :=
  fun _ r => (same r).trans (List.append_nil _).symm

theorem refl : Reports [] fun r => r :=
  of_misplaced fun _ => rfl

theorem report_scoping {fault : BindingFault} (scoping : fault.isScoping) (t : Token) :
    Reports [] fun r => r.report fault t :=
  of_misplaced fun r => by simp [misplaced, report, Error.isPlacement, scoping]

theorem bind (id : RefId) (name : String) : Reports [] fun r => r.bind id name :=
  of_misplaced fun r => by simp [misplaced]

theorem mark (name : String) (defined : Bool) : Reports [] fun r => r.mark name defined :=
  of_misplaced fun r => by
    unfold Resolution.mark
    split <;> rfl

theorem declare (name : Token) : Reports [] fun r => r.declare name := by
  intro named r
  change (r.declare name).misplaced = _
  unfold Resolution.declare
  split
  · exact report_scoping rfl name named r
  · exact mark _ false named r

theorem declareAndDefine (name : Token) : Reports [] fun r => r.declareAndDefine name :=
  (declare name).trans (mark _ true)

theorem declareAll (params : List Token) :
    Reports [] fun r => params.foldl Resolution.declareAndDefine r := by
  induction params with
  | nil => exact refl
  | cons param params ih => exact (declareAndDefine param).trans ih

theorem readVariable (id : RefId) (name : Token) : Reports [] fun r => r.readVariable id name := by
  intro named r
  change (r.readVariable id name).misplaced = _
  unfold Resolution.readVariable
  rw [bind id name.lexeme named]
  unfold reportIf
  split
  · rw [report_scoping rfl name named]
    simp
  · simp

theorem enclosed (inner : Reports a f) : Reports a fun r => (f r.openScope).closeScope :=
  fun named r => inner named r.openScope

theorem site {site : Site} (step : ∀ r, (f r).errors = site.fault?.toList ++ r.errors) :
    Reports [site] f := by
  intro _ r
  unfold misplaced
  rw [step]
  cases found : site.fault? with
  | none => simp [found]
  | some e => simp [found, Site.fault?_isPlacement found]

theorem readThis {ctx : Context} {around : List Layer} (fits : ctx.Fits around) (id : RefId)
    (keyword : Token) :
    Reports [⟨around, .expr (.this id keyword)⟩] fun r => r.readThis ctx id keyword := by
  apply site
  intro r
  simp only [Resolution.readThis, fits.classKind, Site.fault?]
  cases around.find? Layer.isMethod with
  | none => rfl
  | some l => rcases l with _ | _ | _ | ⟨_ | _, _⟩ | _ <;> exact r.bind_errors id keyword.lexeme

theorem readSuper {ctx : Context} {around : List Layer} (fits : ctx.Fits around) (id : RefId)
    (keyword method : Token) :
    Reports [⟨around, .expr (.super id keyword method)⟩] fun r => r.readSuper ctx id keyword := by
  apply site
  intro r
  simp only [Resolution.readSuper, fits.classKind, Site.fault?]
  cases around.find? Layer.isMethod with
  | none => rfl
  | some l =>
    rcases l with _ | _ | _ | ⟨_ | _, _⟩ | _ <;> first | rfl | exact r.bind_errors id keyword.lexeme

theorem breakLoop {ctx : Context} {around : List Layer} (fits : ctx.Fits around)
    (keyword : Token) :
    Reports [⟨around, .stmt (.breakLoop keyword)⟩]
      fun r => r.reportIf (ctx.loopDepth == 0) .breakOutsideLoop keyword := by
  apply site
  intro r
  by_cases outside : ctx.loopDepth = 0
  · have missing := fits.loop.mp outside
    simp [reportIf, outside, report, Site.fault?, missing]
  · have inside := Classical.not_not.mp (mt fits.loop.mpr outside)
    simp [reportIf, outside, Site.fault?, inside]

theorem checkReturn {ctx : Context} {around : List Layer} (fits : ctx.Fits around)
    (keyword : Token) (value : Option Expr) :
    Reports [⟨around, .stmt (.returnFrom keyword value)⟩]
      fun r => r.checkReturn ctx keyword value.isSome := by
  apply site
  intro r
  simp only [Resolution.checkReturn, fits.function, Site.fault?]
  cases around.find? Layer.isRoutine with
  | none => rfl
  | some l =>
    cases l with
    | method inherits name =>
      by_cases isInit : name = initializerName <;> cases value <;>
        simp [Layer.functionKind, isInit, reportIf, report]
    | _ => rfl

theorem checkInheritance (around : List Layer) (name superName : Token) (id : RefId)
    (methods : List Function) :
    Reports [⟨around, .stmt (.classDecl name (some (.variable id superName)) methods)⟩]
      fun r => r.checkInheritance name (.variable id superName) := by
  apply site
  intro r
  by_cases same : superName.lexeme = name.lexeme <;>
    simp [Resolution.checkInheritance, reportIf, report, Site.fault?, same]

end Reports

end Resolution

open Resolution (Reports)

mutual

theorem Expr.resolve_reports {ctx : Context} {around : List Layer} (fits : ctx.Fits around) :
    ∀ e : Expr, Reports (e.sites around) (e.resolve ctx)
  | .literal _ => Reports.refl.visit rfl
  | .grouping e | .unary _ e | .get e _ => (e.resolve_reports fits).visit rfl
  | .binary left _ right | .logical left _ right =>
    ((left.resolve_reports fits).trans (right.resolve_reports fits)).visit rfl
  | .variable id name => (Reports.readVariable id name).visit rfl
  | .assign id name value => by
    have whole := (value.resolve_reports fits).trans (.bind id name.lexeme)
    rw [List.append_nil] at whole
    exact whole.visit rfl
  | .call callee _ arguments =>
    ((callee.resolve_reports fits).trans (resolveExprs_reports fits arguments)).visit rfl
  | .set object _ value =>
    ((value.resolve_reports fits).trans (object.resolve_reports fits)).visit rfl
  | .this id keyword => .readThis fits id keyword
  | .super id keyword method => .readSuper fits id keyword method
  | .function f => (f.resolve_reports fits.inAnonymous).visit rfl

theorem resolveExprs_reports {ctx : Context} {around : List Layer} (fits : ctx.Fits around) :
    ∀ es : List Expr, Reports (exprSites around es) (resolveExprs ctx es)
  | [] => .refl
  | e :: rest => (e.resolve_reports fits).trans (resolveExprs_reports fits rest)

theorem Function.resolve_reports {ctx : Context} {around : List Layer} (fits : ctx.Fits around) :
    ∀ f : Function, Reports (f.sites around) (f.resolve ctx)
  | ⟨_, params, body⟩ =>
    (((Reports.declareAll params).trans (resolveStmts_reports fits body)).enclosed).visit rfl

theorem resolveMethods_reports (ctx : Context) (around : List Layer) (inherits : Bool) :
    ∀ fs : List Function, Reports (methodSites around inherits fs)
      (resolveMethods (ctx.inClass (if inherits then .derived else .root)) fs)
  | [] => .refl
  | f :: rest =>
    (f.resolve_reports (.inMethod ctx around f inherits)).trans
      (resolveMethods_reports ctx around inherits rest)

theorem Stmt.resolve_reports {ctx : Context} {around : List Layer} (fits : ctx.Fits around) :
    ∀ s : Stmt, Reports (s.sites around) (s.resolve ctx)
  | .expression e | .print e => (e.resolve_reports fits).visit rfl
  | .var name none => (Reports.declareAndDefine name).visit rfl
  | .var name (some e) => by
    have whole :=
      ((Reports.declare name).trans (e.resolve_reports fits)).trans (.mark name.lexeme true)
    rw [List.append_nil] at whole
    exact whole.visit rfl
  | .block body => ((resolveStmts_reports fits.inBlock body).enclosed).visit rfl
  | .conditional condition thenBranch none =>
    ((condition.resolve_reports fits).trans (thenBranch.resolve_reports fits)).visit rfl
  | .conditional condition thenBranch (some elseBranch) =>
    ((condition.resolve_reports fits).trans
      ((thenBranch.resolve_reports fits).trans (elseBranch.resolve_reports fits))).visit rfl
  | .loop condition body =>
    ((condition.resolve_reports fits).trans (body.resolve_reports fits.inLoop)).visit rfl
  | .breakLoop keyword => .breakLoop fits keyword
  | .returnFrom keyword none => .checkReturn fits keyword none
  | .returnFrom keyword (some e) =>
    (Reports.checkReturn fits keyword (some e)).trans (e.resolve_reports fits)
  | .function ⟨none, params, body⟩ =>
    (Function.resolve_reports fits.inFunction ⟨none, params, body⟩).visit rfl
  | .function ⟨some name, params, body⟩ =>
    ((Reports.declareAndDefine name).trans
      (Function.resolve_reports fits.inFunction ⟨some name, params, body⟩)).visit rfl
  | .classDecl name none methods => by
    have inner := (Reports.mark "this" true).trans (resolveMethods_reports ctx around false methods)
    exact ((Reports.declareAndDefine name).trans inner.enclosed).visit rfl
  | .classDecl name (some superclass) methods => by
    -- That the superclass is a name must be known first: its site is that of the name.
    intro named
    obtain ⟨id, superName, rfl⟩ := named _ List.mem_cons_self _ _ _ rfl
    have inner := (Reports.mark "this" true).trans (resolveMethods_reports ctx around true methods)
    have outer := ((Reports.mark "super" true).trans inner.enclosed).enclosed
    have head := (Reports.declareAndDefine name).trans
      (.checkInheritance around name superName id methods)
    have superclass : Reports [⟨around, .expr (.variable id superName)⟩]
        fun r => r.readVariable id superName := (Reports.readVariable id superName).visit rfl
    exact (head.trans (superclass.trans outer)) named

theorem resolveStmts_reports {ctx : Context} {around : List Layer} (fits : ctx.Fits around) :
    ∀ body : List Stmt, Reports (stmtSites around body) (resolveStmts ctx body)
  | [] => .refl
  | s :: rest => (s.resolve_reports fits).trans (resolveStmts_reports fits rest)

end

end Quill
