import Quill.Proofs.Tree.WellFormed

set_option autoImplicit false

namespace Quill

namespace Bindings

variable {α : Type}

theorem contains_iff (b : Bindings α) (name : String) :
    b.contains name ↔ ∃ v, b.find? name = some v := by
  unfold contains
  exact Option.isSome_iff_exists

theorem contains_insert (b : Bindings α) (name : String) (value : α) (n : String) :
    (b.insert name value).contains n ↔ n = name ∨ b.contains n := by
  simp only [contains, find?_insert]
  by_cases same : n = name <;> simp [same]

theorem contains_insert_empty (name : String) (value : α) (n : String) :
    (({} : Bindings α).insert name value).contains n ↔ n = name := by
  rw [contains_insert]
  exact or_iff_left Bool.false_ne_true

theorem mem_names_iff (b : Bindings α) (name : String) : name ∈ b.names ↔ b.contains name := by
  obtain ⟨entries⟩ := b
  unfold names contains find?
  induction entries with
  | nil => simp [lookup]
  | cons entry rest ih =>
    obtain ⟨n, v⟩ := entry
    by_cases same : name = n
    · simp [lookup, same]
    · simp [lookup, same] at ih ⊢
      exact ih

end Bindings

structure Walks (ids : List RefId) (r r' : Resolution) : Prop where
  clean : r'.errors = [] → r.errors = []
  distances : ∀ id, id ∉ ids → r'.distances[id]? = r.distances[id]?

namespace Walks

variable {a b : List RefId} {r r' r'' : Resolution}

theorem refl (r : Resolution) : Walks [] r r :=
  ⟨fun h => h, fun _ _ => rfl⟩

theorem trans (first : Walks a r r') (second : Walks b r' r'') : Walks (a ++ b) r r'' := by
  refine ⟨fun h => first.clean (second.clean h), fun id fresh => ?_⟩
  rw [List.mem_append, not_or] at fresh
  rw [second.distances id fresh.2, first.distances id fresh.1]

theorem sub (h : Walks a r r') (sub : a ⊆ b) : Walks b r r' :=
  ⟨h.clean, fun id fresh => h.distances id fun mem => fresh (sub mem)⟩

end Walks

namespace Resolution

theorem report_walks (r : Resolution) (fault : BindingFault) (t : Token) :
    Walks [] r (r.report fault t) :=
  ⟨fun h => absurd h (List.cons_ne_nil _ _), fun _ _ => rfl⟩

theorem reportIf_walks (r : Resolution) (p : Bool) (fault : BindingFault) (t : Token) :
    Walks [] r (r.reportIf p fault t) := by
  unfold reportIf
  split
  · exact report_walks r fault t
  · exact .refl r

@[simp] theorem reportIf_scopes (r : Resolution) (p : Bool) (fault : BindingFault) (t : Token) :
    (r.reportIf p fault t).scopes = r.scopes := by
  unfold reportIf
  split <;> rfl

theorem mark_walks (r : Resolution) (name : String) (defined : Bool) :
    Walks [] r (r.mark name defined) := by
  unfold mark
  split
  · exact .refl r
  · exact ⟨fun h => h, fun _ _ => rfl⟩

theorem openScope_walks (r : Resolution) : Walks [] r r.openScope :=
  ⟨fun h => h, fun _ _ => rfl⟩

def openWith (r : Resolution) (word : String) : Resolution :=
  r.openScope.mark word true

theorem openWith_walks (r : Resolution) (word : String) : Walks [] r (r.openWith word) :=
  (openScope_walks r).trans (mark_walks _ word true)

theorem closeScope_walks (r : Resolution) : Walks [] r r.closeScope :=
  ⟨fun h => h, fun _ _ => rfl⟩

theorem declare_walks (r : Resolution) (name : Token) : Walks [] r (r.declare name) := by
  unfold declare
  split
  · exact report_walks r .redeclared name
  · exact mark_walks r _ _

theorem define_walks (r : Resolution) (name : Token) : Walks [] r (r.define name) :=
  mark_walks r _ _

theorem declareAndDefine_walks (r : Resolution) (name : Token) :
    Walks [] r (r.declareAndDefine name) :=
  (declare_walks r name).trans (define_walks _ name)

theorem declareAll_walks (params : List Token) (r : Resolution) :
    Walks [] r (params.foldl declareAndDefine r) := by
  induction params generalizing r with
  | nil => exact .refl r
  | cons param params ih => exact (declareAndDefine_walks r param).trans (ih _)

theorem bind_walks (r : Resolution) (id : RefId) (name : String) : Walks [id] r (r.bind id name) := by
  unfold bind
  split
  next d h =>
    refine ⟨fun h => h, fun id' fresh => ?_⟩
    have other : id ≠ id' := fun same => fresh (by simp [same])
    simp [Std.TreeMap.getElem?_insert, other]
  next => exact ⟨fun h => h, fun _ _ => rfl⟩

@[simp] theorem bind_scopes (r : Resolution) (id : RefId) (name : String) :
    (r.bind id name).scopes = r.scopes := by
  unfold bind
  split <;> rfl

theorem readVariable_walks (r : Resolution) (id : RefId) (name : Token) :
    Walks [id] r (r.readVariable id name) :=
  (reportIf_walks r _ _ name).trans (bind_walks _ id _)

theorem readThis_walks (r : Resolution) (ctx : Context) (id : RefId) (keyword : Token) :
    Walks [id] r (r.readThis ctx id keyword) := by
  unfold readThis
  split
  · exact (report_walks r _ keyword).sub (by simp)
  · exact bind_walks r id _
  · exact bind_walks r id _

theorem readSuper_walks (r : Resolution) (ctx : Context) (id : RefId) (keyword : Token) :
    Walks [id] r (r.readSuper ctx id keyword) := by
  unfold readSuper
  split
  · exact (report_walks r _ keyword).sub (by simp)
  · exact (report_walks r _ keyword).sub (by simp)
  · exact bind_walks r id _

theorem checkReturn_walks (r : Resolution) (ctx : Context) (keyword : Token) (hasValue : Bool) :
    Walks [] r (r.checkReturn ctx keyword hasValue) := by
  unfold checkReturn
  split
  · exact report_walks r _ keyword
  · exact report_walks r _ keyword
  · exact reportIf_walks r _ _ keyword
  · exact .refl r
  · exact .refl r

theorem checkReturn_scopes (r : Resolution) (ctx : Context) (keyword : Token) (hasValue : Bool) :
    (r.checkReturn ctx keyword hasValue).scopes = r.scopes := by
  unfold checkReturn
  split
  · rfl
  · rfl
  · exact reportIf_scopes r _ _ keyword
  · rfl
  · rfl

theorem checkInheritance_walks (r : Resolution) (name : Token) (e : Expr) :
    Walks [] r (r.checkInheritance name e) := by
  unfold checkInheritance
  split
  · exact reportIf_walks r _ _ _
  · exact .refl r

theorem checkInheritance_scopes (r : Resolution) (name : Token) (e : Expr) :
    (r.checkInheritance name e).scopes = r.scopes := by
  unfold checkInheritance
  split
  · exact reportIf_scopes r _ _ _
  · rfl

end Resolution

/-- The name a statement binds where it stands. -/
def Stmt.declared? : Stmt → Option Token
  | .var name _ => some name
  | .function f => f.name
  | .classDecl name _ _ => some name
  | _ => none

def withName (scopes : List (Bindings Bool)) (name : Token) : List (Bindings Bool) :=
  (Resolution.declareAndDefine ⟨scopes, {}, []⟩ name).scopes

def afterStmt (scopes : List (Bindings Bool)) (s : Stmt) : List (Bindings Bool) :=
  match s.declared? with
  | some name => withName scopes name
  | none => scopes

namespace Resolution

theorem declare_scopes (r : Resolution) (name : Token) :
    (r.declare name).scopes =
      match r.scopes with
      | [] => []
      | scope :: outer =>
        (if scope.contains name.lexeme then scope else scope.insert name.lexeme false) :: outer := by
  obtain ⟨scopes, distances, errors⟩ := r
  cases scopes with
  | nil => rfl
  | cons scope outer =>
    cases found : scope.find? name.lexeme with
    | some b => simp [declare, declaredHere, found, report, Bindings.contains]
    | none => simp [declare, declaredHere, found, mark, Bindings.contains]

theorem define_scopes (r : Resolution) (name : Token) :
    (r.define name).scopes =
      match r.scopes with
      | [] => []
      | scope :: outer => scope.insert name.lexeme true :: outer := by
  obtain ⟨scopes, distances, errors⟩ := r
  cases scopes <;> rfl

theorem declareAndDefine_scopes (r : Resolution) (name : Token) :
    (r.declareAndDefine name).scopes = withName r.scopes name := by
  unfold withName declareAndDefine
  rw [define_scopes, define_scopes, declare_scopes, declare_scopes]

end Resolution

theorem withName_nil (name : Token) : withName [] name = [] := rfl

theorem withName_cons (scope : Bindings Bool) (outer : List (Bindings Bool)) (name : Token) :
    ∃ scope', withName (scope :: outer) name = scope' :: outer ∧
      ∀ x, scope'.find? x = if x = name.lexeme then some true else scope.find? x := by
  unfold withName Resolution.declareAndDefine
  rw [Resolution.define_scopes, Resolution.declare_scopes]
  refine ⟨_, rfl, fun x => ?_⟩
  rw [Bindings.find?_insert]
  split
  · rfl
  · split
    · rfl
    · rw [Bindings.find?_insert, if_neg ‹_›]

theorem withName_tail (scopes : List (Bindings Bool)) (name : Token) :
    (withName scopes name).tail = scopes.tail := by
  cases scopes with
  | nil => rfl
  | cons scope outer =>
    obtain ⟨scope', same, -⟩ := withName_cons scope outer name
    rw [same, List.tail_cons, List.tail_cons]

theorem afterStmt_tail (scopes : List (Bindings Bool)) (s : Stmt) :
    (afterStmt scopes s).tail = scopes.tail := by
  unfold afterStmt
  split
  · exact withName_tail scopes _
  · rfl

theorem foldl_afterStmt_tail (body : List Stmt) (scopes : List (Bindings Bool)) :
    (body.foldl afterStmt scopes).tail = scopes.tail := by
  induction body generalizing scopes with
  | nil => rfl
  | cons s body ih => rw [List.foldl_cons, ih, afterStmt_tail]

theorem declareAll_scopes (params : List Token) (r : Resolution) :
    (params.foldl Resolution.declareAndDefine r).scopes = params.foldl withName r.scopes := by
  induction params generalizing r with
  | nil => rfl
  | cons param params ih => rw [List.foldl_cons, List.foldl_cons, ih, r.declareAndDefine_scopes]

theorem foldl_withName_tail (params : List Token) (scopes : List (Bindings Bool)) :
    (params.foldl withName scopes).tail = scopes.tail := by
  induction params generalizing scopes with
  | nil => rfl
  | cons param params ih => rw [List.foldl_cons, ih, withName_tail]

theorem afterStmt_of_not_declares {s : Stmt} (scopes : List (Bindings Bool))
    (h : s.declares = false) : afterStmt scopes s = scopes := by
  cases s <;> first | rfl | cases h

abbrev Expr.ids (e : Expr) : List RefId :=
  e.references.map (·.id)

abbrev Stmt.ids (s : Stmt) : List RefId :=
  s.references.map (·.id)

abbrev Function.ids (f : Function) : List RefId :=
  f.references.map (·.id)

def Context.inClass (ctx : Context) (kind : ClassKind) : Context :=
  { ctx with classKind := kind }

namespace Resolution

def inheriting (r : Resolution) (name : Token) (superclass : Expr) : Resolution :=
  (r.declareAndDefine name).checkInheritance name superclass

theorem inheriting_walks (r : Resolution) (name : Token) (superclass : Expr) :
    Walks [] r (r.inheriting name superclass) :=
  (declareAndDefine_walks r name).trans (checkInheritance_walks _ name superclass)

theorem inheriting_scopes (r : Resolution) (name : Token) (superclass : Expr) :
    (r.inheriting name superclass).scopes = withName r.scopes name := by
  unfold inheriting
  rw [checkInheritance_scopes, declareAndDefine_scopes]

end Resolution

theorem Stmt.resolve_root (ctx : Context) (name : Token) (methods : List Function)
    (r : Resolution) :
    (Stmt.classDecl name none methods).resolve ctx r =
      (resolveMethods (ctx.inClass .root) methods
        ((r.declareAndDefine name).openWith "this")).closeScope := rfl

theorem Stmt.resolve_derived (ctx : Context) (name : Token) (superclass : Expr)
    (methods : List Function) (r : Resolution) :
    (Stmt.classDecl name (some superclass) methods).resolve ctx r =
      (resolveMethods (ctx.inClass .derived) methods
        (((superclass.resolve (ctx.inClass .derived)
          (r.inheriting name superclass)).openWith "super").openWith "this")).closeScope.closeScope :=
  rfl

structure WalksTo (ids : List RefId) (r r' : Resolution) (scopes : List (Bindings Bool)) : Prop where
  walks : Walks ids r r'
  scopes : r'.scopes = scopes

mutual

theorem Expr.resolve_walks (ctx : Context) :
    ∀ (e : Expr) (r : Resolution), e.WellFormed → WalksTo e.ids r (e.resolve ctx r) r.scopes
  | .literal _, r, _ => ⟨.refl r, rfl⟩
  | .grouping inner, r, wf => inner.resolve_walks ctx r wf
  | .unary _ operand, r, wf => operand.resolve_walks ctx r wf.2
  | .binary left _ right, r, wf => by
    have first := left.resolve_walks ctx r wf.2.1
    have second := right.resolve_walks ctx (left.resolve ctx r) wf.2.2
    refine ⟨?_, second.scopes.trans first.scopes⟩
    simpa [Expr.ids, Expr.references, Expr.resolve] using first.walks.trans second.walks
  | .logical left _ right, r, wf => by
    have first := left.resolve_walks ctx r wf.1
    have second := right.resolve_walks ctx (left.resolve ctx r) wf.2
    refine ⟨?_, second.scopes.trans first.scopes⟩
    simpa [Expr.ids, Expr.references, Expr.resolve] using first.walks.trans second.walks
  | .variable id name, r, _ => ⟨r.readVariable_walks id name, by
      simp [Expr.resolve, Resolution.readVariable]⟩
  | .assign id name value, r, wf => by
    have first := value.resolve_walks ctx r wf.2
    refine ⟨?_, by rw [Expr.resolve, Resolution.bind_scopes, first.scopes]⟩
    refine (first.walks.trans (Resolution.bind_walks _ id name.lexeme)).sub ?_
    simp [Expr.ids, Expr.references]
  | .call callee _ arguments, r, wf => by
    have first := callee.resolve_walks ctx r wf.1
    have second := resolveExprs_walks ctx arguments (callee.resolve ctx r) wf.2
    refine ⟨?_, second.scopes.trans first.scopes⟩
    simpa [Expr.ids, Expr.references, Expr.resolve] using first.walks.trans second.walks
  | .get object _, r, wf => object.resolve_walks ctx r wf
  -- The value is resolved before the object, though it is written after it.
  | .set object _ value, r, wf => by
    have first := value.resolve_walks ctx r wf.2
    have second := object.resolve_walks ctx (value.resolve ctx r) wf.1
    refine ⟨?_, second.scopes.trans first.scopes⟩
    refine (first.walks.trans second.walks).sub ?_
    simp [Expr.ids, Expr.references]
  | .this id keyword, r, _ => ⟨r.readThis_walks ctx id keyword, by
      unfold Expr.resolve Resolution.readThis
      split <;> simp [Resolution.report]⟩
  | .super id keyword _, r, _ => ⟨r.readSuper_walks ctx id keyword, by
      unfold Expr.resolve Resolution.readSuper
      split <;> simp [Resolution.report]⟩
  | .function f, r, wf => f.resolve_walks (ctx.inFunction .anonymous) r wf

theorem resolveExprs_walks (ctx : Context) :
    ∀ (es : List Expr) (r : Resolution), WellFormedExprs es →
      WalksTo ((exprReferences es).map (·.id)) r (resolveExprs ctx es r) r.scopes
  | [], r, _ => ⟨.refl r, rfl⟩
  | e :: rest, r, wf => by
    have first := e.resolve_walks ctx r wf.1
    have second := resolveExprs_walks ctx rest (e.resolve ctx r) wf.2
    refine ⟨?_, second.scopes.trans first.scopes⟩
    simpa [exprReferences, resolveExprs] using first.walks.trans second.walks

theorem Function.resolve_walks (ctx : Context) :
    ∀ (f : Function) (r : Resolution), f.WellFormed → WalksTo f.ids r (f.resolve ctx r) r.scopes
  | ⟨name, params, body⟩, r, wf => by
    have first := (Resolution.openScope_walks r).trans
      (Resolution.declareAll_walks params r.openScope)
    have second := resolveStmts_walks ctx body
      (params.foldl Resolution.declareAndDefine r.openScope) wf.2
    refine ⟨?_, ?_⟩
    · have whole := (first.trans second.walks).trans (Resolution.closeScope_walks _)
      simpa [Function.ids, Function.references, Function.resolve] using whole
    · change (resolveStmts ctx body _).scopes.tail = _
      rw [second.scopes, foldl_afterStmt_tail, declareAll_scopes, foldl_withName_tail]
      rfl

theorem resolveMethods_walks (ctx : Context) :
    ∀ (fs : List Function) (r : Resolution), WellFormedFunctions fs →
      WalksTo ((functionReferences fs).map (·.id)) r (resolveMethods ctx fs r) r.scopes
  | [], r, _ => ⟨.refl r, rfl⟩
  | f :: rest, r, wf => by
    have first := f.resolve_walks (ctx.inFunction f.methodKind) r wf.1
    have second := resolveMethods_walks ctx rest (f.resolve (ctx.inFunction f.methodKind) r) wf.2
    refine ⟨?_, second.scopes.trans first.scopes⟩
    simpa [functionReferences, resolveMethods] using first.walks.trans second.walks

theorem Stmt.resolve_walks (ctx : Context) :
    ∀ (s : Stmt) (r : Resolution), s.WellFormed →
      WalksTo s.ids r (s.resolve ctx r) (afterStmt r.scopes s)
  | .expression e, r, wf | .print e, r, wf => e.resolve_walks ctx r wf
  | .var name none, r, _ => ⟨r.declareAndDefine_walks name, r.declareAndDefine_scopes name⟩
  | .var name (some e), r, wf => by
    -- The initializer is walked while its variable is declared and not yet defined.
    have first := r.declare_walks name
    have second := e.resolve_walks ctx (r.declare name) wf.2
    have third := (e.resolve ctx (r.declare name)).define_walks name
    refine ⟨?_, ?_⟩
    · simpa [Stmt.ids, Stmt.references, Stmt.resolve] using (first.trans second.walks).trans third
    · rw [Stmt.resolve, Resolution.define_scopes, second.scopes, ← Resolution.define_scopes]
      exact r.declareAndDefine_scopes name
  | .block body, r, wf => by
    have first := resolveStmts_walks ctx body r.openScope wf
    refine ⟨?_, ?_⟩
    · have whole := ((Resolution.openScope_walks r).trans first.walks).trans
        (Resolution.closeScope_walks _)
      simpa [Stmt.ids, Stmt.references, Stmt.resolve] using whole
    · change (resolveStmts ctx body _).scopes.tail = _
      rw [first.scopes, foldl_afterStmt_tail]
      rfl
  | .conditional condition thenBranch none, r, wf => by
    have first := condition.resolve_walks ctx r wf.1
    have second := thenBranch.resolve_walks ctx (condition.resolve ctx r) wf.2.1
    refine ⟨?_, ?_⟩
    · simpa [Stmt.ids, Stmt.references, Stmt.resolve] using first.walks.trans second.walks
    · exact second.scopes.trans ((afterStmt_of_not_declares _ wf.2.2).trans first.scopes)
  | .conditional condition thenBranch (some elseBranch), r, wf => by
    have first := condition.resolve_walks ctx r wf.1
    have second := thenBranch.resolve_walks ctx (condition.resolve ctx r) wf.2.1.1
    have third := elseBranch.resolve_walks ctx (thenBranch.resolve ctx (condition.resolve ctx r))
      wf.2.2.1
    refine ⟨?_, ?_⟩
    · simpa [Stmt.ids, Stmt.references, Stmt.resolve] using
        (first.walks.trans second.walks).trans third.walks
    · rw [Stmt.resolve, third.scopes, afterStmt_of_not_declares _ wf.2.2.2, second.scopes,
        afterStmt_of_not_declares _ wf.2.1.2, first.scopes]
      rfl
  | .loop condition body, r, wf => by
    have first := condition.resolve_walks ctx r wf.1
    have second := body.resolve_walks ctx.inLoop (condition.resolve ctx r) wf.2.1
    refine ⟨?_, ?_⟩
    · simpa [Stmt.ids, Stmt.references, Stmt.resolve] using first.walks.trans second.walks
    · exact second.scopes.trans ((afterStmt_of_not_declares _ wf.2.2).trans first.scopes)
  | .breakLoop keyword, r, _ => ⟨r.reportIf_walks _ _ keyword, r.reportIf_scopes _ _ keyword⟩
  | .returnFrom keyword none, r, _ =>
    ⟨r.checkReturn_walks ctx keyword false, r.checkReturn_scopes ctx keyword false⟩
  | .returnFrom keyword (some e), r, wf => by
    have first := r.checkReturn_walks ctx keyword true
    have second := e.resolve_walks ctx (r.checkReturn ctx keyword true) wf
    refine ⟨?_, second.scopes.trans (r.checkReturn_scopes ctx keyword true)⟩
    simpa [Stmt.ids, Stmt.references, Stmt.resolve] using first.trans second.walks
  | .function ⟨none, _, _⟩, _, wf => by
    obtain ⟨⟨_, unnamed, -⟩, -⟩ := wf
    cases unnamed
  | .function ⟨some name, params, body⟩, r, wf => by
    have first := r.declareAndDefine_walks name
    have second := Function.resolve_walks (ctx.inFunction .function) ⟨some name, params, body⟩
      (r.declareAndDefine name) wf.2
    refine ⟨?_, second.scopes.trans (r.declareAndDefine_scopes name)⟩
    simpa [Stmt.ids, Stmt.references, Stmt.resolve] using first.trans second.walks
  | .classDecl name none methods, r, wf => by
    have first := (r.declareAndDefine_walks name).trans (Resolution.openWith_walks _ "this")
    have second := resolveMethods_walks (ctx.inClass .root) methods
      ((r.declareAndDefine name).openWith "this") wf.2.2
    rw [Stmt.resolve_root]
    refine ⟨?_, ?_⟩
    · have whole := (first.trans second.walks).trans (Resolution.closeScope_walks _)
      simpa [Stmt.ids, Stmt.references] using whole
    · change (resolveMethods _ methods _).scopes.tail = _
      rw [second.scopes]
      exact r.declareAndDefine_scopes name
  | .classDecl name (some superclass) methods, r, wf => by
    -- The name, the superclass, the two scopes around the methods, and the methods.
    have first := r.inheriting_walks name superclass
    have second := superclass.resolve_walks (ctx.inClass .derived) (r.inheriting name superclass)
      (wellFormed_of_superclass wf.2.1)
    have third := (Resolution.openWith_walks (superclass.resolve (ctx.inClass .derived)
      (r.inheriting name superclass)) "super").trans (Resolution.openWith_walks _ "this")
    have fourth := resolveMethods_walks (ctx.inClass .derived) methods
      (((superclass.resolve (ctx.inClass .derived)
        (r.inheriting name superclass)).openWith "super").openWith "this") wf.2.2
    rw [Stmt.resolve_derived]
    refine ⟨?_, ?_⟩
    · have whole := (((first.trans second.walks).trans third).trans fourth.walks).trans
        ((Resolution.closeScope_walks _).trans (Resolution.closeScope_walks _))
      simpa [Stmt.ids, Stmt.references] using whole
    · change (resolveMethods _ methods _).scopes.tail.tail = _
      rw [fourth.scopes]
      change (superclass.resolve _ _).scopes = _
      rw [second.scopes]
      exact r.inheriting_scopes name superclass

theorem resolveStmts_walks (ctx : Context) :
    ∀ (body : List Stmt) (r : Resolution), WellFormedStmts body →
      WalksTo ((stmtReferences body).map (·.id)) r (resolveStmts ctx body r)
        (body.foldl afterStmt r.scopes)
  | [], r, _ => ⟨.refl r, rfl⟩
  | s :: rest, r, wf => by
    have first := s.resolve_walks ctx r wf.1
    have second := resolveStmts_walks ctx rest (s.resolve ctx r) wf.2
    refine ⟨?_, by rw [resolveStmts, second.scopes, first.scopes, List.foldl_cons]⟩
    simpa [stmtReferences, resolveStmts] using first.walks.trans second.walks

end

end Quill
