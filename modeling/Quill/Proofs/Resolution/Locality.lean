import Quill.Proofs.Resolution.Visit

set_option autoImplicit false

namespace Quill

def Error.Binding : Error → Prop
  | .binding .. => True
  | _ => False

namespace Resolution

structure Shifted (table : Distances) (past : List Error) (r r' : Resolution) : Prop where
  scopes : r'.scopes = r.scopes
  errors : r'.errors = r.errors ++ past
  distances : ∀ id : RefId, r'.distances[id]? = r.distances[id]?.or table[id]?

theorem Shifted.declaredHere {table : Distances} {past : List Error} {r r' : Resolution}
    (shifted : Shifted table past r r') (name : String) :
    r'.declaredHere name = r.declaredHere name := by
  unfold Resolution.declaredHere
  rw [shifted.scopes]

structure Local (references : List Reference) (f : Resolution → Resolution) : Prop where
  walks : ∀ r, Walks (references.map (·.id)) r (f r)
  height : ∀ r, (f r).scopes.length = r.scopes.length
  outer : ∀ r, (f r).scopes.tail = r.scopes.tail
  faults : ∀ r, ∀ e ∈ (f r).errors, e ∈ r.errors ∨ e.Binding
  shifted : ∀ {table past r r'}, Shifted table past r r' → Shifted table past (f r) (f r')

namespace Local

variable {a b : List Reference} {f g : Resolution → Resolution}

theorem refl : Local [] fun r => r :=
  ⟨.refl, fun _ => rfl, fun _ => rfl, fun _ _ => .inl, fun shifted => shifted⟩

theorem trans (first : Local a f) (second : Local b g) : Local (a ++ b) fun r => g (f r) where
  walks r := by
    rw [List.map_append]
    exact (first.walks r).trans (second.walks (f r))
  height r := (second.height (f r)).trans (first.height r)
  outer r := (second.outer (f r)).trans (first.outer r)
  faults r e mem := (second.faults (f r) e mem).elim (first.faults r e) .inr
  shifted shifted := second.shifted (first.shifted shifted)

theorem mono (stretch : Local a f) (sub : a ⊆ b) : Local b f :=
  { stretch with walks := fun r => (stretch.walks r).sub (List.map_subset _ sub) }

theorem enclosed (inner : Local a f) : Local a fun r => (f r.openScope).closeScope := by
  -- The stretch changes the topmost scope only, and that is the one closed in the end.
  have scopes (r : Resolution) : (f r.openScope).closeScope.scopes = r.scopes :=
    inner.outer r.openScope
  refine ⟨fun r => ?_, fun r => ?_, fun r => ?_, fun r => inner.faults r.openScope,
    fun {table past r r'} shifted => ?_⟩
  · have whole := ((openScope_walks r).trans (inner.walks r.openScope)).trans
      (closeScope_walks (f r.openScope))
    simpa using whole
  · rw [scopes]
  · rw [scopes]
  · have opened : Shifted table past r.openScope r'.openScope :=
      ⟨congrArg (Bindings.empty :: ·) shifted.scopes, shifted.errors, shifted.distances⟩
    have inside := inner.shifted opened
    exact ⟨congrArg List.tail inside.scopes, inside.errors, inside.distances⟩

theorem report (fault : BindingFault) (t : Token) : Local [] fun r => r.report fault t where
  walks r := r.report_walks fault t
  height _ := rfl
  outer _ := rfl
  faults _ _ mem := (List.mem_cons.mp mem).elim (fun same => .inr (same ▸ trivial)) .inl
  shifted shifted := ⟨shifted.scopes, congrArg (_ :: ·) shifted.errors, shifted.distances⟩

theorem reportIf (p : Bool) (fault : BindingFault) (t : Token) :
    Local [] fun r => r.reportIf p fault t := by
  cases p with
  | false => exact refl
  | true => exact report fault t

theorem mark (name : String) (defined : Bool) : Local [] fun r => r.mark name defined where
  walks r := r.mark_walks name defined
  height r := by
    unfold Resolution.mark
    split
    next none => rfl
    next scope outer some => rw [some]; rfl
  outer r := by
    unfold Resolution.mark
    split
    next none => rfl
    next scope outer some => rw [some]; rfl
  faults r e mem := by
    unfold Resolution.mark at mem
    split at mem <;> exact .inl mem
  shifted {table past r r'} shifted := by
    unfold Resolution.mark
    rw [shifted.scopes]
    split
    · exact shifted
    · exact ⟨rfl, shifted.errors, shifted.distances⟩

theorem declare (name : Token) : Local [] fun r => r.declare name := by
  have reported : Local [] fun r => r.report .redeclared name := report .redeclared name
  have marked : Local [] fun r => r.mark name.lexeme false := mark name.lexeme false
  refine ⟨fun r => r.declare_walks name, fun r => ?_, fun r => ?_, fun r => ?_,
    fun {_ _ r r'} shifted => ?_⟩
  · unfold Resolution.declare
    split
    · exact reported.height r
    · exact marked.height r
  · unfold Resolution.declare
    split
    · exact reported.outer r
    · exact marked.outer r
  · unfold Resolution.declare
    split
    · exact reported.faults r
    · exact marked.faults r
  · unfold Resolution.declare
    rw [shifted.declaredHere]
    split
    · exact reported.shifted shifted
    · exact marked.shifted shifted

theorem define (name : Token) : Local [] fun r => r.define name :=
  mark name.lexeme true

theorem declareAndDefine (name : Token) : Local [] fun r => r.declareAndDefine name :=
  (declare name).trans (define name)

theorem declareAll (params : List Token) :
    Local [] fun r => params.foldl Resolution.declareAndDefine r := by
  induction params with
  | nil => exact refl
  | cons param params ih => exact (declareAndDefine param).trans ih

theorem bind (reference : Reference) (name : String) :
    Local [reference] fun r => r.bind reference.id name where
  walks r := r.bind_walks reference.id name
  height r := by rw [bind_scopes]
  outer r := by rw [bind_scopes]
  faults r e mem := by
    unfold Resolution.bind at mem
    split at mem <;> exact .inl mem
  shifted {table past r r'} shifted := by
    unfold Resolution.bind distance?
    rw [shifted.scopes]
    split
    next d found =>
      refine ⟨rfl, shifted.errors, fun id => ?_⟩
      change (r'.distances.insert reference.id d)[id]? =
        (r.distances.insert reference.id d)[id]?.or table[id]?
      rw [Std.TreeMap.getElem?_insert, Std.TreeMap.getElem?_insert]
      split
      · rfl
      · exact shifted.distances id
    next => exact shifted

theorem readVariable (reference : Reference) (name : Token) :
    Local [reference] fun r => r.readVariable reference.id name := by
  have bound : Local [reference] fun r => r.bind reference.id name.lexeme := bind reference _
  have checked (p : Bool) : Local [] fun r => r.reportIf p .ownInitializer name := reportIf p _ name
  refine ⟨fun r => r.readVariable_walks reference.id name, fun r => ?_, fun r => ?_,
    fun r e mem => ?_, fun {_ _ r r'} shifted => ?_⟩
  · unfold Resolution.readVariable
    rw [bind_scopes, reportIf_scopes]
  · unfold Resolution.readVariable
    rw [bind_scopes, reportIf_scopes]
  · exact (bound.faults _ e mem).elim ((checked _).faults r e) .inr
  · unfold Resolution.readVariable
    rw [shifted.declaredHere]
    exact bound.shifted ((checked _).shifted shifted)

theorem readThis (ctx : Context) (reference : Reference) (keyword : Token) :
    Local [reference] fun r => r.readThis ctx reference.id keyword := by
  unfold Resolution.readThis
  split
  · exact (report .thisOutsideClass keyword).mono (List.nil_subset _)
  · exact bind reference keyword.lexeme
  · exact bind reference keyword.lexeme

theorem readSuper (ctx : Context) (reference : Reference) (keyword : Token) :
    Local [reference] fun r => r.readSuper ctx reference.id keyword := by
  unfold Resolution.readSuper
  split
  · exact (report .superOutsideClass keyword).mono (List.nil_subset _)
  · exact (report .superWithoutSuperclass keyword).mono (List.nil_subset _)
  · exact bind reference keyword.lexeme

theorem checkReturn (ctx : Context) (keyword : Token) (hasValue : Bool) :
    Local [] fun r => r.checkReturn ctx keyword hasValue := by
  unfold Resolution.checkReturn
  split
  · exact report .returnAtTopLevel keyword
  · exact report .returnFromAnonymous keyword
  · exact reportIf hasValue .returnValueFromInitializer keyword
  · exact refl
  · exact refl

theorem inheriting (name : Token) (superclass : Expr) :
    Local [] fun r => r.inheriting name superclass := by
  have checked : Local [] fun r => r.checkInheritance name superclass := by
    cases superclass with
    | «variable» _ superName => exact reportIf _ .inheritsItself superName
    | _ => exact refl
  exact (declareAndDefine name).trans checked

theorem suffix (stretch : Local a f) (r : Resolution) : r.errors <:+ (f r).errors := by
  -- Without those errors the walk would have gone the same way.
  let blank : Resolution := { r with errors := [] }
  have shifted : Shifted {} r.errors blank r := ⟨rfl, rfl, fun id => by simp [blank]⟩
  exact ⟨(f blank).errors, (stretch.shifted shifted).errors.symm⟩

theorem silent (first : Local a f) (second : Local b g) {r : Resolution}
    (silent : (g (f r)).errors = r.errors) :
    (f r).errors = r.errors ∧ (g (f r)).errors = (f r).errors := by
  have le : (f r).errors.length ≤ r.errors.length := silent ▸ (second.suffix (f r)).length_le
  have same : r.errors = (f r).errors := (first.suffix r).eq_of_length_le le
  exact ⟨same.symm, silent.trans same⟩

end Local

end Resolution

open Resolution (Local)

mutual

theorem Expr.resolve_local (ctx : Context) : ∀ e : Expr, Local e.references (e.resolve ctx)
  | .literal _ => .refl
  | .grouping e | .unary _ e | .get e _ => e.resolve_local ctx
  | .binary left _ right | .logical left _ right =>
    (left.resolve_local ctx).trans (right.resolve_local ctx)
  | .variable id name => .readVariable ⟨.variable, name, id⟩ name
  | .assign id name value =>
    ((value.resolve_local ctx).trans (.bind ⟨.assignment, name, id⟩ name.lexeme)).mono
      List.perm_append_comm.subset
  | .call callee _ arguments =>
    (callee.resolve_local ctx).trans (resolveExprs_local ctx arguments)
  | .set object _ value =>
    ((value.resolve_local ctx).trans (object.resolve_local ctx)).mono List.perm_append_comm.subset
  | .this id keyword => .readThis ctx ⟨.this, keyword, id⟩ keyword
  | .super id keyword _ => .readSuper ctx ⟨.super, keyword, id⟩ keyword
  | .function f => f.resolve_local (ctx.inFunction .anonymous)

theorem resolveExprs_local (ctx : Context) :
    ∀ es : List Expr, Local (exprReferences es) (resolveExprs ctx es)
  | [] => .refl
  | e :: rest => (e.resolve_local ctx).trans (resolveExprs_local ctx rest)

theorem Function.resolve_local (ctx : Context) :
    ∀ f : Function, Local f.references (f.resolve ctx)
  | ⟨_, params, body⟩ => ((Local.declareAll params).trans (resolveStmts_local ctx body)).enclosed

theorem resolveMethods_local (ctx : Context) :
    ∀ fs : List Function, Local (functionReferences fs) (resolveMethods ctx fs)
  | [] => .refl
  | f :: rest =>
    (f.resolve_local (ctx.inFunction f.methodKind)).trans (resolveMethods_local ctx rest)

theorem Stmt.resolve_local (ctx : Context) : ∀ s : Stmt, Local s.references (s.resolve ctx)
  | .expression e | .print e => e.resolve_local ctx
  | .var name none => .declareAndDefine name
  | .var name (some e) => by
    have whole := ((Local.declare name).trans (e.resolve_local ctx)).trans (.define name)
    rw [List.append_nil] at whole
    exact whole
  | .block body => (resolveStmts_local ctx body).enclosed
  | .conditional condition thenBranch none =>
    (condition.resolve_local ctx).trans (thenBranch.resolve_local ctx)
  | .conditional condition thenBranch (some elseBranch) =>
    ((condition.resolve_local ctx).trans (thenBranch.resolve_local ctx)).trans
      (elseBranch.resolve_local ctx)
  | .loop condition body => (condition.resolve_local ctx).trans (body.resolve_local ctx.inLoop)
  | .breakLoop keyword => .reportIf _ .breakOutsideLoop keyword
  | .returnFrom keyword none => .checkReturn ctx keyword false
  | .returnFrom keyword (some e) => (Local.checkReturn ctx keyword true).trans (e.resolve_local ctx)
  | .function ⟨none, params, body⟩ =>
    Function.resolve_local (ctx.inFunction .function) ⟨none, params, body⟩
  | .function ⟨some name, params, body⟩ =>
    (Local.declareAndDefine name).trans
      (Function.resolve_local (ctx.inFunction .function) ⟨some name, params, body⟩)
  | .classDecl name none methods => by
    have inner := (Local.mark "this" true).trans (resolveMethods_local (ctx.inClass .root) methods)
    exact (Local.declareAndDefine name).trans inner.enclosed
  | .classDecl name (some superclass) methods => by
    have inner := (Local.mark "this" true).trans (resolveMethods_local (ctx.inClass .derived) methods)
    have outer := ((Local.mark "super" true).trans inner.enclosed).enclosed
    exact ((Local.inheriting name superclass).trans
      (superclass.resolve_local (ctx.inClass .derived))).trans outer

theorem resolveStmts_local (ctx : Context) :
    ∀ body : List Stmt, Local (stmtReferences body) (resolveStmts ctx body)
  | [] => .refl
  | s :: rest => (s.resolve_local ctx).trans (resolveStmts_local ctx rest)

end

theorem Piece.resolve_local (ctx : Context) (p : Piece) : Local p.references (p.resolve ctx) := by
  cases p with
  | expr e => exact e.resolve_local ctx
  | exprs es => exact resolveExprs_local ctx es
  | function f => exact f.resolve_local ctx
  | functions fs => exact resolveMethods_local ctx fs
  | stmt s => exact s.resolve_local ctx
  | stmts body => exact resolveStmts_local ctx body

theorem Piece.distances_outside {p : Piece} {table : Distances}
    (resolved : (p.resolve .top .start).result = .ok table) {id : RefId} (outside : id ∉ p.ids) :
    table[id]? = none := by
  rw [← (Resolution.result_ok resolved).2]
  exact ((p.resolve_local .top).walks .start).distances id outside

theorem Piece.mem_ids_of_recorded {p : Piece} {table : Distances}
    (resolved : (p.resolve .top .start).result = .ok table) {id : RefId} (recorded : id ∈ table) :
    id ∈ p.ids := by
  refine Decidable.byContradiction fun outside => ?_
  rw [← Std.TreeMap.isSome_getElem?_iff_mem, p.distances_outside resolved outside] at recorded
  cases recorded

end Quill
