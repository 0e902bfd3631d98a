import Quill.Proofs.Resolution.Walk

set_option autoImplicit false

namespace Quill

inductive Frame where
  | names (all : List String)
  | receiver
  | parent (declaration : Stmt)

namespace Frame

def Records : Frame → String → Prop
  | names all, x => x ∈ all
  | receiver, x => x = "this"
  | parent _, x => x = "super"

def isNames : Frame → Bool
  | names _ => true
  | receiver | parent _ => false

/-- A scope on its way to a frame; the words of the machine's own are there from the start. -/
def Fits : Frame → Bindings Bool → Prop
  | names all, scope => ∀ x, scope.contains x → x ∈ all ∧ x ≠ "this" ∧ x ≠ "super"
  | receiver, scope => ∀ x, scope.contains x ↔ x = "this"
  | parent _, scope => ∀ x, scope.contains x ↔ x = "super"

end Frame

def FitAll : List (Bindings Bool) → List Frame → Prop
  | [], [] => True
  | scope :: scopes, frame :: frames => frame.Fits scope ∧ FitAll scopes frames
  | _, _ => False

def Grown : List (Bindings Bool) → List (Bindings Bool) → Prop
  | [], [] => True
  | scope :: scopes, scope' :: scopes' =>
    (∀ x, scope.contains x → scope'.contains x) ∧ scopes' = scopes
  | _, _ => False

namespace Grown

variable {a b c : List (Bindings Bool)}

theorem refl (a : List (Bindings Bool)) : Grown a a := by
  cases a with
  | nil => trivial
  | cons scope scopes => exact ⟨fun _ h => h, rfl⟩

theorem trans (first : Grown a b) (second : Grown b c) : Grown a c := by
  match a, b, c, first, second with
  | [], [], [], _, _ => trivial
  | _ :: _, _ :: _, _ :: _, ⟨sub, rfl⟩, ⟨sub', rfl⟩ => exact ⟨fun x h => sub' x (sub x h), rfl⟩

theorem withName (scopes : List (Bindings Bool)) (name : Token) :
    Grown scopes (withName scopes name) := by
  cases scopes with
  | nil => trivial
  | cons scope outer =>
    obtain ⟨scope', same, found⟩ := withName_cons scope outer name
    rw [same]
    refine ⟨fun x h => ?_, rfl⟩
    obtain ⟨b, hb⟩ := (scope.contains_iff x).mp h
    rw [Bindings.contains_iff, found]
    split
    · exact ⟨true, rfl⟩
    · exact ⟨b, hb⟩

theorem foldl_withName (params : List Token) (scopes : List (Bindings Bool)) :
    Grown scopes (params.foldl Quill.withName scopes) := by
  induction params generalizing scopes with
  | nil => exact .refl scopes
  | cons param params ih => exact (withName scopes param).trans (ih _)

theorem afterStmt (scopes : List (Bindings Bool)) (s : Stmt) : Grown scopes (afterStmt scopes s) := by
  unfold Quill.afterStmt
  split
  · exact withName scopes _
  · exact .refl scopes

theorem foldl_afterStmt (body : List Stmt) (scopes : List (Bindings Bool)) :
    Grown scopes (body.foldl Quill.afterStmt scopes) := by
  induction body generalizing scopes with
  | nil => exact .refl scopes
  | cons s body ih => exact (afterStmt scopes s).trans (ih _)

theorem declare (r : Resolution) (name : Token) : Grown r.scopes (r.declare name).scopes := by
  rw [Resolution.declare_scopes]
  split
  next h => rw [h]; trivial
  next scope outer h =>
    rw [h]
    refine ⟨fun x h => ?_, rfl⟩
    split
    · exact h
    · exact (scope.contains_insert _ _ x).mpr (.inr h)

theorem define (r : Resolution) (name : Token) : Grown r.scopes (r.define name).scopes := by
  rw [Resolution.define_scopes]
  split
  next h => rw [h]; trivial
  next scope outer h =>
    rw [h]
    exact ⟨fun x h => (scope.contains_insert _ _ x).mpr (.inr h), rfl⟩

end Grown

theorem FitAll.between {a b c : List (Bindings Bool)} {frames : List Frame} (first : FitAll a frames)
    (last : FitAll c frames) (ab : Grown a b) (bc : Grown b c) : FitAll b frames := by
  match a, b, c, frames, first, last, ab, bc with
  | [], [], [], [], _, _, _, _ => trivial
  | scope :: _, scope' :: _, scope'' :: _, frame :: _, ⟨low, outer⟩, ⟨high, _⟩, ⟨up, rfl⟩,
      ⟨up', _⟩ =>
    refine ⟨?_, outer⟩
    cases frame with
    | names all => exact fun x h => high x (up' x h)
    | receiver | parent _ =>
      exact fun x => ⟨fun h => (high x).mp (up' x h), fun h => up x ((low x).mpr h)⟩

def Resolution.innermost (r : Resolution) : List String :=
  match r.scopes with
  | [] => []
  | scope :: _ => scope.names

mutual

def Expr.superSites (owner : Option Stmt) : Expr → List (RefId × Stmt)
  | .literal _ | .variable .. | .this .. => []
  | .grouping e | .unary _ e | .get e _ | .assign _ _ e => e.superSites owner
  | .binary left _ right | .logical left _ right =>
    left.superSites owner ++ right.superSites owner
  | .set object _ value => object.superSites owner ++ value.superSites owner
  | .call callee _ arguments => callee.superSites owner ++ exprSuperSites owner arguments
  | .super id _ _ => owner.toList.map (id, ·)
  | .function f => f.superSites owner
termination_by structural x => x

def exprSuperSites (owner : Option Stmt) : List Expr → List (RefId × Stmt)
  | [] => []
  | e :: rest => e.superSites owner ++ exprSuperSites owner rest
termination_by structural x => x

def Function.superSites (owner : Option Stmt) : Function → List (RefId × Stmt)
  | ⟨_, _, body⟩ => stmtSuperSites owner body
termination_by structural x => x

def functionSuperSites (owner : Option Stmt) : List Function → List (RefId × Stmt)
  | [] => []
  | f :: rest => f.superSites owner ++ functionSuperSites owner rest
termination_by structural x => x

def Stmt.superSites (owner : Option Stmt) : Stmt → List (RefId × Stmt)
  | .expression e | .print e => e.superSites owner
  | .var _ none => []
  | .var _ (some e) => e.superSites owner
  | .block body => stmtSuperSites owner body
  | .conditional condition thenBranch none =>
    condition.superSites owner ++ thenBranch.superSites owner
  | .conditional condition thenBranch (some elseBranch) =>
    condition.superSites owner ++ thenBranch.superSites owner ++ elseBranch.superSites owner
  | .loop condition body => condition.superSites owner ++ body.superSites owner
  | .breakLoop _ => []
  | .returnFrom _ none => []
  | .returnFrom _ (some e) => e.superSites owner
  | .function f => f.superSites owner
  | .classDecl name none methods =>
    functionSuperSites (some (.classDecl name none methods)) methods
  | .classDecl name (some superclass) methods =>
    superclass.superSites owner ++
      functionSuperSites (some (.classDecl name (some superclass) methods)) methods
termination_by structural x => x

def stmtSuperSites (owner : Option Stmt) : List Stmt → List (RefId × Stmt)
  | [] => []
  | s :: rest => s.superSites owner ++ stmtSuperSites owner rest
termination_by structural x => x

end

mutual

theorem Expr.superSites_ids (owner : Option Stmt) :
    ∀ e : Expr, ((e.superSites owner).map Prod.fst).Sublist e.ids
  | .literal _ | .variable .. | .this .. => List.nil_sublist _
  | .grouping e | .unary _ e | .get e _ => e.superSites_ids owner
  | .assign _ _ e => (e.superSites_ids owner).cons _
  | .binary left _ right | .logical left _ right | .set left _ right => by
    simpa [Expr.superSites, Expr.ids, Expr.references] using
      (left.superSites_ids owner).append (right.superSites_ids owner)
  | .call callee _ arguments => by
    simpa [Expr.superSites, Expr.ids, Expr.references] using
      (callee.superSites_ids owner).append (exprSuperSites_ids owner arguments)
  | .super id _ _ => by
    cases owner with
    | none => exact List.nil_sublist _
    | some declaration => exact List.Sublist.refl _
  | .function f => f.superSites_ids owner
termination_by structural e => e

theorem exprSuperSites_ids (owner : Option Stmt) :
    ∀ es : List Expr, ((exprSuperSites owner es).map Prod.fst).Sublist ((exprReferences es).map (·.id))
  | [] => List.nil_sublist _
  | e :: rest => by
    simpa [exprSuperSites, exprReferences] using
      (e.superSites_ids owner).append (exprSuperSites_ids owner rest)
termination_by structural es => es

theorem Function.superSites_ids (owner : Option Stmt) :
    ∀ f : Function, ((f.superSites owner).map Prod.fst).Sublist f.ids
  | ⟨_, _, body⟩ => stmtSuperSites_ids owner body
termination_by structural f => f

theorem functionSuperSites_ids (owner : Option Stmt) :
    ∀ fs : List Function,
      ((functionSuperSites owner fs).map Prod.fst).Sublist ((functionReferences fs).map (·.id))
  | [] => List.nil_sublist _
  | f :: rest => by
    simpa [functionSuperSites, functionReferences] using
      (f.superSites_ids owner).append (functionSuperSites_ids owner rest)
termination_by structural fs => fs

theorem Stmt.superSites_ids (owner : Option Stmt) :
    ∀ s : Stmt, ((s.superSites owner).map Prod.fst).Sublist s.ids
  | .expression e | .print e => e.superSites_ids owner
  | .var _ none | .breakLoop _ | .returnFrom _ none => List.nil_sublist _
  | .var _ (some e) | .returnFrom _ (some e) => e.superSites_ids owner
  | .block body => stmtSuperSites_ids owner body
  | .conditional condition thenBranch none => by
    simpa [Stmt.superSites, Stmt.ids, Stmt.references] using
      (condition.superSites_ids owner).append (thenBranch.superSites_ids owner)
  | .conditional condition thenBranch (some elseBranch) => by
    simpa [Stmt.superSites, Stmt.ids, Stmt.references] using
      ((condition.superSites_ids owner).append (thenBranch.superSites_ids owner)).append
        (elseBranch.superSites_ids owner)
  | .loop condition body => by
    simpa [Stmt.superSites, Stmt.ids, Stmt.references] using
      (condition.superSites_ids owner).append (body.superSites_ids owner)
  | .function f => f.superSites_ids owner
  | .classDecl _ none methods => functionSuperSites_ids _ methods
  | .classDecl _ (some superclass) methods => by
    simpa [Stmt.superSites, Stmt.ids, Stmt.references] using
      (superclass.superSites_ids owner).append (functionSuperSites_ids _ methods)
termination_by structural s => s

theorem stmtSuperSites_ids (owner : Option Stmt) :
    ∀ body : List Stmt,
      ((stmtSuperSites owner body).map Prod.fst).Sublist ((stmtReferences body).map (·.id))
  | [] => List.nil_sublist _
  | s :: rest => by
    simpa [stmtSuperSites, stmtReferences] using
      (s.superSites_ids owner).append (stmtSuperSites_ids owner rest)
termination_by structural body => body

end

theorem Resolution.result_ok {r : Resolution} {table : Distances} (h : r.result = .ok table) :
    r.errors = [] ∧ r.distances = table := by
  unfold result at h
  split at h
  next clean =>
    cases h
    exact ⟨clean, rfl⟩
  next => cases h

/-- A part of a program that resolution walks over. -/
inductive Piece where
  | expr (e : Expr)
  | exprs (es : List Expr)
  | function (f : Function)
  | functions (fs : List Function)
  | stmt (s : Stmt)
  | stmts (body : List Stmt)

namespace Piece

def resolve (ctx : Context) : Piece → Resolution → Resolution
  | expr e => e.resolve ctx
  | exprs es => resolveExprs ctx es
  | function f => f.resolve ctx
  | functions fs => resolveMethods ctx fs
  | stmt s => s.resolve ctx
  | stmts body => resolveStmts ctx body

def references : Piece → List Reference
  | expr e => e.references
  | exprs es => exprReferences es
  | function f => f.references
  | functions fs => functionReferences fs
  | stmt s => s.references
  | stmts body => stmtReferences body

abbrev ids (p : Piece) : List RefId :=
  p.references.map (·.id)

def superSites (owner : Option Stmt) : Piece → List (RefId × Stmt)
  | expr e => e.superSites owner
  | exprs es => exprSuperSites owner es
  | function f => f.superSites owner
  | functions fs => functionSuperSites owner fs
  | stmt s => s.superSites owner
  | stmts body => stmtSuperSites owner body

def WellFormed : Piece → Prop
  | expr e => e.WellFormed
  | exprs es => WellFormedExprs es
  | function f => f.WellFormed
  | functions fs => WellFormedFunctions fs
  | stmt s => s.WellFormed
  | stmts body => WellFormedStmts body

def scopesAfter (scopes : List (Bindings Bool)) : Piece → List (Bindings Bool)
  | stmt s => afterStmt scopes s
  | stmts body => body.foldl afterStmt scopes
  | _ => scopes

theorem resolve_walks (ctx : Context) (p : Piece) (r : Resolution) (wf : p.WellFormed) :
    WalksTo p.ids r (p.resolve ctx r) (p.scopesAfter r.scopes) := by
  cases p with
  | expr e => exact e.resolve_walks ctx r wf
  | exprs es => exact resolveExprs_walks ctx es r wf
  | function f => exact f.resolve_walks ctx r wf
  | functions fs => exact resolveMethods_walks ctx fs r wf
  | stmt s => exact s.resolve_walks ctx r wf
  | stmts body => exact resolveStmts_walks ctx body r wf

end Piece

structure Visit where
  ctx : Context
  owner : Option Stmt
  state : Resolution
  frames : List Frame
  piece : Piece

namespace Visit

def after (v : Visit) : Resolution :=
  v.piece.resolve v.ctx v.state

def next (v : Visit) (state : Resolution) (piece : Piece) : Visit :=
  { v with state := state, piece := piece }

def inside (v : Visit) (state : Resolution) (body : List Stmt) : Visit :=
  { v with
    state := state
    frames := .names (resolveStmts v.ctx body state).innermost :: v.frames
    piece := .stmts body }

def exprParts (v : Visit) : Expr → List Visit
  | .literal _ | .variable .. | .this .. | .super .. => []
  | .grouping e | .unary _ e | .get e _ | .assign _ _ e => [v.next v.state (.expr e)]
  | .binary left _ right | .logical left _ right =>
    [v.next v.state (.expr left), v.next (left.resolve v.ctx v.state) (.expr right)]
  | .set object _ value =>
    [v.next v.state (.expr value), v.next (value.resolve v.ctx v.state) (.expr object)]
  | .call callee _ arguments =>
    [v.next v.state (.expr callee), v.next (callee.resolve v.ctx v.state) (.exprs arguments)]
  | .function f => [{ v with ctx := v.ctx.inFunction .anonymous, piece := .function f }]

def stmtParts (v : Visit) : Stmt → List Visit
  | .expression e | .print e => [v.next v.state (.expr e)]
  | .var _ none | .breakLoop _ | .returnFrom _ none => []
  | .var name (some e) => [v.next (v.state.declare name) (.expr e)]
  | .block body => [v.inside v.state.openScope body]
  | .conditional condition thenBranch none =>
    [v.next v.state (.expr condition), v.next (condition.resolve v.ctx v.state) (.stmt thenBranch)]
  | .conditional condition thenBranch (some elseBranch) =>
    [v.next v.state (.expr condition), v.next (condition.resolve v.ctx v.state) (.stmt thenBranch),
      v.next (thenBranch.resolve v.ctx (condition.resolve v.ctx v.state)) (.stmt elseBranch)]
  | .loop condition body =>
    [v.next v.state (.expr condition),
      { v.next (condition.resolve v.ctx v.state) (.stmt body) with ctx := v.ctx.inLoop }]
  | .returnFrom keyword (some e) => [v.next (v.state.checkReturn v.ctx keyword true) (.expr e)]
  | .function f =>
    let state := match f.name with
      | some name => v.state.declareAndDefine name
      | none => v.state
    [{ v.next state (.function f) with ctx := v.ctx.inFunction .function }]
  | .classDecl name none methods =>
    [{ ctx := v.ctx.inClass .root
       owner := some (.classDecl name none methods)
       state := (v.state.declareAndDefine name).openWith "this"
       frames := .receiver :: v.frames
       piece := .functions methods }]
  | .classDecl name (some superclass) methods =>
    let declaration := Stmt.classDecl name (some superclass) methods
    let ctx := v.ctx.inClass .derived
    let state := v.state.inheriting name superclass
    [{ v.next state (.expr superclass) with ctx := ctx },
      { ctx := ctx
        owner := some declaration
        state := ((superclass.resolve ctx state).openWith "super").openWith "this"
        frames := .receiver :: .parent declaration :: v.frames
        piece := .functions methods }]

def parts (v : Visit) : List Visit :=
  match v.piece with
  | .expr e => v.exprParts e
  | .exprs [] => []
  | .exprs (e :: rest) => [v.next v.state (.expr e), v.next (e.resolve v.ctx v.state) (.exprs rest)]
  | .function ⟨_, params, body⟩ =>
    [v.inside (params.foldl Resolution.declareAndDefine v.state.openScope) body]
  | .functions [] => []
  | .functions (f :: rest) =>
    let ctx := v.ctx.inFunction f.methodKind
    [{ v with ctx := ctx, piece := .function f }, v.next (f.resolve ctx v.state) (.functions rest)]
  | .stmt s => v.stmtParts s
  | .stmts [] => []
  | .stmts (s :: rest) => [v.next v.state (.stmt s), v.next (s.resolve v.ctx v.state) (.stmts rest)]

def top (program : List Stmt) : Visit :=
  ⟨.top, none, .start, [], .stmts program⟩

end Visit

/-- The walk over a program comes by. -/
inductive Visits (program : List Stmt) : Visit → Prop where
  | top : Visits program (.top program)
  | part {v part : Visit} : Visits program v → part ∈ v.parts → Visits program part

end Quill
