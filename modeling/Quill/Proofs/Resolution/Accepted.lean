import Quill.Proofs.Resolution.Visit

set_option autoImplicit false

namespace Quill

theorem Piece.grown_scopesAfter (p : Piece) (scopes : List (Bindings Bool)) :
    Grown scopes (p.scopesAfter scopes) := by
  cases p with
  | stmt s => exact Grown.afterStmt scopes s
  | stmts body => exact Grown.foldl_afterStmt body scopes
  | expr _ | exprs _ | function _ | functions _ => exact .refl scopes

theorem Stmt.plain_of_declared {name : Token} (s : Stmt) (wf : s.WellFormed)
    (h : s.declared? = some name) : name.Plain := by
  cases s with
  | var name' initializer =>
    cases h
    cases initializer with
    | none => exact wf
    | some e => exact wf.1
  | function f =>
    obtain ⟨⟨name', same, plain⟩, -⟩ := wf
    have same' : f.name = some name := h
    rw [same] at same'
    cases same'
    exact plain
  | classDecl name' superclass methods =>
    cases h
    exact wf.1
  | _ => cases h

def PlainFirst : List (Bindings Bool) → Prop
  | [] => True
  | scope :: _ => ∀ x, scope.contains x → x ≠ "this" ∧ x ≠ "super"

namespace PlainFirst

theorem withName {scopes : List (Bindings Bool)} {name : Token} (h : PlainFirst scopes)
    (plain : name.Plain) : PlainFirst (withName scopes name) := by
  cases scopes with
  | nil => trivial
  | cons scope outer =>
    obtain ⟨scope', same, found⟩ := withName_cons scope outer name
    rw [same]
    intro x hx
    rw [Bindings.contains_iff, found] at hx
    split at hx
    next same => exact same ▸ plain
    next => exact h x ((scope.contains_iff x).mpr hx)

theorem foldl_withName {params : List Token} {scopes : List (Bindings Bool)}
    (h : PlainFirst scopes) (plain : ∀ p ∈ params, p.Plain) :
    PlainFirst (params.foldl Quill.withName scopes) := by
  induction params generalizing scopes with
  | nil => exact h
  | cons param params ih =>
    exact ih (h.withName (plain param List.mem_cons_self))
      fun p mem => plain p (List.mem_cons_of_mem _ mem)

theorem afterStmt {scopes : List (Bindings Bool)} {s : Stmt} (h : PlainFirst scopes)
    (wf : s.WellFormed) : PlainFirst (afterStmt scopes s) := by
  unfold Quill.afterStmt
  split
  next name declared => exact h.withName (s.plain_of_declared wf declared)
  next => exact h

theorem foldl_afterStmt {body : List Stmt} {scopes : List (Bindings Bool)}
    (h : PlainFirst scopes) (wf : WellFormedStmts body) :
    PlainFirst (body.foldl Quill.afterStmt scopes) := by
  induction body generalizing scopes with
  | nil => exact h
  | cons s body ih => exact ih (h.afterStmt wf.1) wf.2

end PlainFirst

theorem Resolution.bind_distance (r : Resolution) {id : RefId} (name : String)
    (fresh : r.distances[id]? = none) : (r.bind id name).distances[id]? = r.distance? name := by
  unfold bind
  split
  next d found => rw [found, Std.TreeMap.getElem?_insert_self]
  next missing => rw [missing, fresh]

namespace FitAll

theorem distance_names {scopes : List (Bindings Bool)} {inner frames : List Frame} {word : String}
    (h : FitAll scopes (inner ++ frames)) (own : ∀ f ∈ inner, f.isNames)
    (reserved : word = "this" ∨ word = "super") :
    ∃ rest, FitAll rest frames ∧
      scopes.findIdx? (·.contains word) =
        (rest.findIdx? (·.contains word)).map (· + inner.length) := by
  induction inner generalizing scopes with
  | nil => exact ⟨scopes, h, by simp⟩
  | cons frame inner ih =>
    cases scopes with
    | nil => cases h
    | cons scope scopes =>
      obtain ⟨fits, h⟩ := h
      obtain ⟨rest, fits', same⟩ := ih h fun f mem => own f (List.mem_cons_of_mem _ mem)
      refine ⟨rest, fits', ?_⟩
      -- A scope of names holds neither word, so the search goes past it.
      have missing : scope.contains word = false := by
        have isNames := own frame List.mem_cons_self
        cases frame with
        | receiver | parent _ => cases isNames
        | names all =>
          refine Bool.eq_false_iff.mpr fun found => ?_
          have plain := fits word found
          rcases reserved with rfl | rfl
          · exact plain.2.1 rfl
          · exact plain.2.2 rfl
      rw [List.findIdx?_cons, missing, same]
      cases rest.findIdx? (·.contains word) with
      | none => rfl
      | some d => simp [Nat.add_assoc]

theorem distance_receiver {r : Resolution} {inner outer : List Frame}
    (h : FitAll r.scopes (inner ++ .receiver :: outer)) (own : ∀ f ∈ inner, f.isNames) :
    r.distance? "this" = some inner.length := by
  obtain ⟨rest, fits, same⟩ := h.distance_names own (.inl rfl)
  unfold Resolution.distance?
  rw [same]
  cases rest with
  | nil => cases fits
  | cons scope rest => simp [List.findIdx?_cons, (fits.1 "this").mpr rfl]

theorem distance_parent {r : Resolution} {inner outer : List Frame} {declaration : Stmt}
    (h : FitAll r.scopes (inner ++ .receiver :: .parent declaration :: outer))
    (own : ∀ f ∈ inner, f.isNames) : r.distance? "super" = some (inner.length + 1) := by
  obtain ⟨rest, fits, same⟩ := h.distance_names own (.inr rfl)
  unfold Resolution.distance?
  rw [same]
  match rest, fits with
  | scope :: scope' :: rest, ⟨this, super, _⟩ =>
    have missing : scope.contains "super" = false :=
      Bool.eq_false_iff.mpr fun found => absurd ((this "super").mp found) (by decide)
    simp [List.findIdx?_cons, missing, (super "super").mpr rfl, Nat.add_comm]

end FitAll

namespace Visit

structure Resolved (table : Distances) (v : Visit) : Prop where
  clean : v.after.errors = []
  fresh : ∀ id ∈ v.piece.ids, v.state.distances[id]? = none
  nodup : v.piece.ids.Nodup
  agree : ∀ id ∈ v.piece.ids, table[id]? = v.after.distances[id]?

theorem Resolved.part {table : Distances} {v part : Visit} {a b : List RefId}
    (h : v.Resolved table) (perm : v.piece.ids.Perm (a ++ part.piece.ids ++ b))
    (before : Walks a v.state part.state) (later : Walks b part.after v.after) :
    part.Resolved table := by
  have nodup := perm.nodup_iff.mp h.nodup
  have mem {id : RefId} (hid : id ∈ part.piece.ids) : id ∈ v.piece.ids :=
    perm.mem_iff.mpr (List.mem_append_left _ (List.mem_append_right _ hid))
  rw [List.nodup_append, List.nodup_append] at nodup
  obtain ⟨⟨-, own, apart⟩, -, apart'⟩ := nodup
  refine ⟨later.clean h.clean, fun id hid => ?_, own, fun id hid => ?_⟩
  · rw [before.distances id fun ha => apart id ha id hid rfl]
    exact h.fresh id (mem hid)
  · rw [h.agree id (mem hid)]
    exact later.distances id fun hb => apart' id (List.mem_append_right _ hid) id hb rfl

def Layout (kind : ClassKind) (owner : Option Stmt) (frames : List Frame) : Prop :=
  match kind with
  | .none => True
  | .root => ∃ inner outer, frames = inner ++ .receiver :: outer ∧ ∀ f ∈ inner, f.isNames
  | .derived => ∃ inner declaration outer, owner = some declaration ∧
      frames = inner ++ .receiver :: .parent declaration :: outer ∧ ∀ f ∈ inner, f.isNames

theorem Layout.inside {kind : ClassKind} {owner : Option Stmt} {frames : List Frame}
    (h : Layout kind owner frames) (all : List String) :
    Layout kind owner (.names all :: frames) := by
  have names {inner : List Frame} (h : ∀ f ∈ inner, f.isNames) :
      ∀ f ∈ Frame.names all :: inner, f.isNames := by
    intro f mem
    rcases List.mem_cons.mp mem with rfl | mem
    · rfl
    · exact h f mem
  cases kind with
  | none => trivial
  | root =>
    obtain ⟨inner, outer, rfl, own⟩ := h
    exact ⟨.names all :: inner, outer, rfl, names own⟩
  | derived =>
    obtain ⟨inner, declaration, outer, same, rfl, own⟩ := h
    exact ⟨.names all :: inner, declaration, outer, same, rfl, names own⟩

theorem scopes_after (v : Visit) (wf : v.piece.WellFormed) :
    v.after.scopes = v.piece.scopesAfter v.state.scopes :=
  (v.piece.resolve_walks v.ctx v.state wf).scopes

theorem grown (v : Visit) (wf : v.piece.WellFormed) : Grown v.state.scopes v.after.scopes := by
  rw [v.scopes_after wf]
  exact v.piece.grown_scopesAfter v.state.scopes

def IsName (v : Visit) : Prop :=
  ∃ id name, v.piece = .expr (.variable id name)

structure Ok (table : Distances) (sites : List (RefId × Stmt)) (v : Visit) : Prop where
  wellFormed : v.piece.WellFormed
  resolved : v.Resolved table
  fits : FitAll v.state.scopes v.frames
  fitsAfter : FitAll v.after.scopes v.frames
  layout : v.IsName ∨ Layout v.ctx.classKind v.owner v.frames
  sites : ∀ site ∈ v.piece.superSites v.owner, site ∈ sites

def Row : Resolution → List Visit → Resolution → Prop
  | start, [], last => start = last
  | start, part :: rest, last => part.state = start ∧ Row part.after rest last

namespace Row

variable {start last : Resolution} {parts : List Visit}

theorem walks (row : Row start parts last) (wf : ∀ part ∈ parts, part.piece.WellFormed) :
    Walks (parts.flatMap (·.piece.ids)) start last := by
  induction parts generalizing start with
  | nil =>
    obtain rfl : start = last := row
    exact .refl start
  | cons part rest ih =>
    obtain ⟨rfl, row⟩ := row
    have walk := part.piece.resolve_walks part.ctx part.state (wf part List.mem_cons_self)
    exact walk.walks.trans (ih row fun p mem => wf p (List.mem_cons_of_mem _ mem))

theorem grown (row : Row start parts last) (wf : ∀ part ∈ parts, part.piece.WellFormed) :
    Grown start.scopes last.scopes := by
  induction parts generalizing start with
  | nil =>
    obtain rfl : start = last := row
    exact .refl _
  | cons part rest ih =>
    obtain ⟨rfl, row⟩ := row
    have grows := part.grown (wf part List.mem_cons_self)
    exact grows.trans (ih row fun p mem => wf p (List.mem_cons_of_mem _ mem))

end Row

namespace Ok

variable {table : Distances} {sites : List (RefId × Stmt)} {v : Visit}

theorem after_scopes (h : v.Ok table sites) : v.after.scopes = v.piece.scopesAfter v.state.scopes :=
  v.scopes_after h.wellFormed

theorem layout_of_not_name (h : v.Ok table sites)
    (notName : ∀ id name, v.piece ≠ .expr (.variable id name)) :
    Layout v.ctx.classKind v.owner v.frames := by
  rcases h.layout with ⟨id, name, same⟩ | layout
  · exact absurd same (notName id name)
  · exact layout

theorem sub (h : v.Ok table sites) {part : Visit} {a b : List RefId}
    (layout : part.IsName ∨ Layout part.ctx.classKind part.owner part.frames)
    (wf : part.piece.WellFormed) (perm : v.piece.ids.Perm (a ++ part.piece.ids ++ b))
    (before : Walks a v.state part.state) (later : Walks b part.after v.after)
    (frames : part.frames = v.frames) (grown : Grown v.state.scopes part.state.scopes)
    (grown' : Grown (part.piece.scopesAfter part.state.scopes) v.after.scopes)
    (sites' : part.piece.superSites part.owner ⊆ v.piece.superSites v.owner) :
    part.Ok table sites := by
  have grows := part.piece.grown_scopesAfter part.state.scopes
  refine ⟨wf, h.resolved.part perm before later, ?_, ?_, layout,
    fun site mem => h.sites site (sites' mem)⟩
  · rw [frames]
    exact h.fits.between h.fitsAfter grown (grows.trans grown')
  · rw [frames, part.scopes_after wf]
    exact h.fits.between h.fitsAfter (grown.trans grows) grown'

theorem first (h : v.Ok table sites) {part : Visit} {b : List RefId}
    (layout : Layout part.ctx.classKind part.owner part.frames)
    (wf : part.piece.WellFormed) (perm : v.piece.ids.Perm (part.piece.ids ++ b))
    (start : part.state = v.state) (later : Walks b part.after v.after)
    (scopes : v.after.scopes = part.after.scopes) (frames : part.frames = v.frames)
    (sites' : part.piece.superSites part.owner ⊆ v.piece.superSites v.owner) :
    part.Ok table sites := by
  refine h.sub (.inr layout) wf (a := []) perm ?_ later frames ?_ ?_ sites'
  · rw [start]
    exact .refl _
  · rw [start]
    exact .refl _
  · rw [scopes, part.scopes_after wf]
    exact .refl _

theorem row (h : v.Ok table sites) {parts : List Visit} {start : Resolution} {a : List RefId}
    (before : Walks a v.state start) (grown : Grown v.state.scopes start.scopes)
    (row : Row start parts v.after) (wf : ∀ part ∈ parts, part.piece.WellFormed)
    (layout : ∀ part ∈ parts, Layout part.ctx.classKind part.owner part.frames)
    (perm : v.piece.ids.Perm (a ++ parts.flatMap (·.piece.ids)))
    (frames : ∀ part ∈ parts, part.frames = v.frames)
    (sites' : ∀ part ∈ parts, part.piece.superSites part.owner ⊆ v.piece.superSites v.owner) :
    ∀ part ∈ parts, part.Ok table sites := by
  induction parts generalizing start a with
  | nil => exact fun part mem => by cases mem
  | cons part rest ih =>
    obtain ⟨rfl, row⟩ := row
    have wf' := wf part List.mem_cons_self
    have walk := part.piece.resolve_walks part.ctx part.state wf'
    have later := row.walks fun p mem => wf p (List.mem_cons_of_mem _ mem)
    have grown' := row.grown fun p mem => wf p (List.mem_cons_of_mem _ mem)
    rw [List.flatMap_cons] at perm
    intro p mem
    rcases List.mem_cons.mp mem with rfl | mem
    · refine h.sub (.inr (layout p List.mem_cons_self)) wf' ?_ before later
        (frames p List.mem_cons_self) grown ?_ (sites' p List.mem_cons_self)
      · rwa [List.append_assoc]
      · rwa [← p.scopes_after wf']
    · refine ih (before.trans walk.walks) (grown.trans (part.grown wf')) row
        (fun p mem => wf p (List.mem_cons_of_mem _ mem))
        (fun p mem => layout p (List.mem_cons_of_mem _ mem)) ?_
        (fun p mem => frames p (List.mem_cons_of_mem _ mem))
        (fun p mem => sites' p (List.mem_cons_of_mem _ mem)) p mem
      rwa [List.append_assoc]

theorem pair (h : v.Ok table sites) {fst snd : Visit}
    (layout : Layout fst.ctx.classKind fst.owner fst.frames)
    (layout' : Layout snd.ctx.classKind snd.owner snd.frames)
    (wf : fst.piece.WellFormed) (wf' : snd.piece.WellFormed)
    (perm : v.piece.ids.Perm (fst.piece.ids ++ snd.piece.ids)) (start : fst.state = v.state)
    (between : snd.state = fst.after) (last : snd.after = v.after)
    (frames : fst.frames = v.frames) (frames' : snd.frames = v.frames)
    (sites' : fst.piece.superSites fst.owner ⊆ v.piece.superSites v.owner)
    (sites'' : snd.piece.superSites snd.owner ⊆ v.piece.superSites v.owner) :
    ∀ part ∈ [fst, snd], part.Ok table sites := by
  refine h.row (.refl _) (.refl _) ⟨start, between, last⟩ ?_ ?_ ?_ ?_ ?_
  · exact List.forall_mem_cons.mpr ⟨wf, List.forall_mem_singleton.mpr wf'⟩
  · exact List.forall_mem_cons.mpr ⟨layout, List.forall_mem_singleton.mpr layout'⟩
  · simpa [List.flatMap_cons] using perm
  · exact List.forall_mem_cons.mpr ⟨frames, List.forall_mem_singleton.mpr frames'⟩
  · exact List.forall_mem_cons.mpr ⟨sites', List.forall_mem_singleton.mpr sites''⟩

theorem inside (h : v.Ok table sites) {state : Resolution} {body : List Stmt}
    {scope : Bindings Bool} (layout : Layout v.ctx.classKind v.owner v.frames)
    (wf : WellFormedStmts body) (perm : v.piece.ids = (Piece.stmts body).ids)
    (before : Walks [] v.state state)
    (later : Walks [] (resolveStmts v.ctx body state) v.after)
    (scopes : state.scopes = scope :: v.state.scopes) (plain : PlainFirst state.scopes)
    (sites' : stmtSuperSites v.owner body ⊆ v.piece.superSites v.owner) :
    (v.inside state body).Ok table sites := by
  have walk := resolveStmts_walks v.ctx body state wf
  have grows := Grown.foldl_afterStmt body state.scopes
  have plain' := plain.foldl_afterStmt wf
  have outer := foldl_afterStmt_tail body state.scopes
  rw [← walk.scopes] at grows plain' outer
  -- The frame lists what the scope holds in the end, and the scope only grows until then.
  cases last : (resolveStmts v.ctx body state).scopes with
  | nil =>
    rw [last, scopes] at grows
    cases grows
  | cons scope' scopes' =>
    rw [last, scopes] at grows
    rw [last] at plain'
    obtain ⟨grows, rfl⟩ := grows
    have names (x : String) (hx : scope'.contains x) :
        x ∈ (resolveStmts v.ctx body state).innermost := by
      rw [Resolution.innermost, last]
      exact (scope'.mem_names_iff x).mpr hx
    refine ⟨wf, h.resolved.part (a := []) (b := []) ?_ before later, ?_, ?_, .inr ?_,
      fun site mem => h.sites site (sites' mem)⟩
    · rw [perm, List.append_nil]
      rfl
    · change FitAll state.scopes _
      rw [scopes]
      exact ⟨fun x hx => ⟨names x (grows x hx), plain' x (grows x hx)⟩, h.fits⟩
    · change FitAll (resolveStmts v.ctx body state).scopes _
      rw [last]
      exact ⟨fun x hx => ⟨names x hx, plain' x hx⟩, h.fits⟩
    · exact layout.inside _

section Parts

variable {ctx : Context} {owner : Option Stmt} {state : Resolution} {frames : List Frame}

theorem expr_parts {e : Expr} (h : Ok table sites ⟨ctx, owner, state, frames, .expr e⟩) :
    ∀ part ∈ exprParts ⟨ctx, owner, state, frames, .expr e⟩ e, part.Ok table sites := by
  have wf := h.wellFormed
  have layout (notName : ∀ id name, Piece.expr e ≠ .expr (.variable id name)) :
      Layout ctx.classKind owner frames := h.layout_of_not_name notName
  have one {part : Visit} (ok : part.Ok table sites) : ∀ p ∈ [part], p.Ok table sites :=
    List.forall_mem_singleton.mpr ok
  -- The identities of the parts in the order of the walk are those of the whole, up to order.
  cases e with
  | literal _ | «variable» _ _ | this _ _ | super _ _ _ => exact fun part mem => by cases mem
  | grouping e | get e _ =>
    exact one (h.first (layout (by simp)) wf (b := [])
      (.of_eq (List.append_nil _).symm) rfl (.refl _) rfl rfl (List.Subset.refl _))
  | unary _ e =>
    exact one (h.first (layout (by simp)) wf.2 (b := [])
      (.of_eq (List.append_nil _).symm) rfl (.refl _) rfl rfl (List.Subset.refl _))
  | assign id name value =>
    refine one (h.first (layout (by simp)) wf.2 (b := [id]) ?_ rfl
      (Resolution.bind_walks _ id name.lexeme) ?_ rfl (List.Subset.refl _))
    · exact (List.perm_append_singleton id value.ids).symm
    · exact Resolution.bind_scopes _ _ _
  | binary left _ right =>
    refine h.pair (layout (by simp)) (layout (by simp)) wf.2.1 wf.2.2 ?_ rfl rfl rfl rfl rfl ?_ ?_
    · exact .of_eq List.map_append
    · exact List.subset_append_left _ _
    · exact List.subset_append_right _ _
  | logical left _ right =>
    refine h.pair (layout (by simp)) (layout (by simp)) wf.1 wf.2 ?_ rfl rfl rfl rfl rfl ?_ ?_
    · exact .of_eq List.map_append
    · exact List.subset_append_left _ _
    · exact List.subset_append_right _ _
  | set object _ value =>
    refine h.pair (layout (by simp)) (layout (by simp)) wf.2 wf.1 ?_ rfl rfl rfl rfl rfl ?_ ?_
    · exact (List.Perm.of_eq List.map_append).trans List.perm_append_comm
    · exact List.subset_append_right _ _
    · exact List.subset_append_left _ _
  | call callee _ arguments =>
    refine h.pair (layout (by simp)) (layout (by simp)) wf.1 wf.2 ?_ rfl rfl rfl rfl rfl ?_ ?_
    · exact .of_eq List.map_append
    · exact List.subset_append_left _ _
    · exact List.subset_append_right _ _
  | function f =>
    exact one (h.first (layout (by simp)) wf (b := [])
      (.of_eq (List.append_nil _).symm) rfl (.refl _) rfl rfl (List.Subset.refl _))

theorem methods {s : Stmt} (h : Ok table sites ⟨ctx, owner, state, frames, .stmt s⟩)
    {part : Visit} {methods : List Function} {a : List RefId} (piece : part.piece = .functions methods)
    (wf : WellFormedFunctions methods) (perm : s.ids.Perm (a ++ part.piece.ids))
    (before : Walks a state part.state) (later : Walks [] part.after (s.resolve ctx state))
    (fits : FitAll part.state.scopes part.frames)
    (layout : Layout part.ctx.classKind part.owner part.frames)
    (sites' : part.piece.superSites part.owner ⊆ s.superSites owner) : part.Ok table sites := by
  have wf' : part.piece.WellFormed := by
    rw [piece]
    exact wf
  have after : part.after.scopes = part.state.scopes := by
    rw [part.scopes_after wf', piece]
    rfl
  refine ⟨wf', h.resolved.part (a := a) (b := []) ?_ before later, fits, ?_, .inr layout,
    fun site mem => h.sites site (sites' mem)⟩
  · rw [List.append_nil]
    exact perm
  · rw [after]
    exact fits

theorem root_parts {name : Token} {methods : List Function}
    (h : Ok table sites ⟨ctx, owner, state, frames, .stmt (.classDecl name none methods)⟩) :
    ∀ part ∈ stmtParts ⟨ctx, owner, state, frames, .stmt (.classDecl name none methods)⟩
      (.classDecl name none methods), part.Ok table sites := by
  have wf : name.Plain ∧ Superclass none ∧ WellFormedFunctions methods := h.wellFormed
  have declared : FitAll (withName state.scopes name) frames := by
    have last := h.fitsAfter
    rwa [h.after_scopes] at last
  refine List.forall_mem_singleton.mpr (h.methods rfl wf.2.2 (a := []) (.refl _)
    ((state.declareAndDefine_walks name).trans (Resolution.openWith_walks _ "this"))
    (Resolution.closeScope_walks _) ⟨?_, ?_⟩ ⟨[], frames, rfl, by simp⟩ (List.Subset.refl _))
  · exact Bindings.contains_insert_empty "this" true
  · rw [← state.declareAndDefine_scopes name] at declared
    exact declared

theorem derived_parts {name : Token} {superclass : Expr} {methods : List Function}
    (h : Ok table sites
      ⟨ctx, owner, state, frames, .stmt (.classDecl name (some superclass) methods)⟩) :
    ∀ part ∈ stmtParts ⟨ctx, owner, state, frames, .stmt (.classDecl name (some superclass) methods)⟩
      (.classDecl name (some superclass) methods), part.Ok table sites := by
  have wf : name.Plain ∧ Superclass (some superclass) ∧ WellFormedFunctions methods := h.wellFormed
  have declared : FitAll (withName state.scopes name) frames := by
    have last := h.fitsAfter
    rwa [h.after_scopes] at last
  have walk := superclass.resolve_walks (ctx.inClass .derived) (state.inheriting name superclass)
    (wellFormed_of_superclass wf.2.1)
  have opening := (Resolution.openWith_walks (superclass.resolve (ctx.inClass .derived)
    (state.inheriting name superclass)) "super").trans (Resolution.openWith_walks _ "this")
  have methodsWalk := resolveMethods_walks (ctx.inClass .derived) methods
    (((superclass.resolve (ctx.inClass .derived)
      (state.inheriting name superclass)).openWith "super").openWith "this") wf.2.2
  have closing : Walks [] _ ((Stmt.classDecl name (some superclass) methods).resolve ctx state) :=
    (Resolution.closeScope_walks _).trans (Resolution.closeScope_walks _)
  have perm : (Stmt.classDecl name (some superclass) methods).ids.Perm
      (superclass.ids ++ (Piece.functions methods).ids) := .of_eq List.map_append
  refine List.forall_mem_cons.mpr ⟨?_, List.forall_mem_singleton.mpr ?_⟩
  -- The superclass is a name, so it needs no layout of its own.
  · refine h.sub (a := []) (b := (Piece.functions methods).ids) (.inl ?_)
      (wellFormed_of_superclass wf.2.1) perm (state.inheriting_walks name superclass) ?_ rfl ?_ ?_
      (List.subset_append_left _ _)
    · cases superclass <;> first | exact ⟨_, _, rfl⟩ | cases wf.2.1
    · have whole := (opening.trans methodsWalk.walks).trans closing
      rwa [List.append_nil] at whole
    · change Grown _ (state.inheriting name superclass).scopes
      rw [state.inheriting_scopes]
      exact .withName _ _
    · rw [h.after_scopes]
      change Grown (state.inheriting name superclass).scopes (withName state.scopes name)
      rw [state.inheriting_scopes]
      exact .refl _
  · have before := ((state.inheriting_walks name superclass).trans walk.walks).trans opening
    simp only [List.append_nil, List.nil_append] at before
    refine h.methods rfl wf.2.2 (a := superclass.ids) perm before closing ⟨?_, ?_, ?_⟩
      ⟨[], _, frames, rfl, rfl, by simp⟩ (List.subset_append_right _ _)
    · exact Bindings.contains_insert_empty "this" true
    · exact Bindings.contains_insert_empty "super" true
    · change FitAll (superclass.resolve _ _).scopes frames
      rw [walk.scopes, state.inheriting_scopes]
      exact declared

theorem stmt_parts {s : Stmt} (h : Ok table sites ⟨ctx, owner, state, frames, .stmt s⟩) :
    ∀ part ∈ stmtParts ⟨ctx, owner, state, frames, .stmt s⟩ s, part.Ok table sites := by
  have wf := h.wellFormed
  have layout : Layout ctx.classKind owner frames := h.layout_of_not_name (by simp)
  have one {part : Visit} (ok : part.Ok table sites) : ∀ p ∈ [part], p.Ok table sites :=
    List.forall_mem_singleton.mpr ok
  cases s with
  | breakLoop _ => exact fun part mem => by cases mem
  | expression e | print e =>
    exact one (h.first layout wf (b := []) (.of_eq (List.append_nil _).symm) rfl (.refl _) rfl rfl
      (List.Subset.refl _))
  | var name initializer =>
    cases initializer with
    | none => exact fun part mem => by cases mem
    | some e =>
      have wf : name.Plain ∧ e.WellFormed := wf
      have walk := e.resolve_walks ctx (state.declare name) wf.2
      refine one (h.sub (.inr layout) wf.2 (a := []) (b := []) (.of_eq (List.append_nil _).symm)
        (state.declare_walks name) (Resolution.define_walks _ name) rfl (.declare state name) ?_
        (List.Subset.refl _))
      -- The variable is declared before its initializer is visited and defined after it.
      have grown := Grown.define (e.resolve ctx (state.declare name)) name
      rw [walk.scopes] at grown
      exact grown
  | block body =>
    exact one (h.inside layout wf rfl (Resolution.openScope_walks state)
      (Resolution.closeScope_walks _) rfl (fun x hx => by cases hx) (List.Subset.refl _))
  | conditional condition thenBranch elseBranch =>
    cases elseBranch with
    | none =>
      have wf : condition.WellFormed ∧ thenBranch.WellFormed ∧ thenBranch.declares = false := wf
      exact h.pair layout layout wf.1 wf.2.1 (.of_eq List.map_append) rfl rfl rfl rfl rfl
        (List.subset_append_left _ _) (List.subset_append_right _ _)
    | some elseBranch =>
      have wf : condition.WellFormed ∧ (thenBranch.WellFormed ∧ thenBranch.declares = false) ∧
        elseBranch.WellFormed ∧ elseBranch.declares = false := wf
      refine h.row (a := []) (.refl _) (.refl _) ⟨rfl, rfl, rfl, rfl⟩ ?_ ?_ ?_ ?_ ?_ <;>
        simp only [stmtParts, Visit.next, List.mem_cons, List.not_mem_nil, or_false,
          forall_eq_or_imp, forall_eq]
      · exact ⟨wf.1, wf.2.1.1, wf.2.2.1⟩
      · exact ⟨layout, layout, layout⟩
      · simp [Piece.ids, Piece.references, Stmt.references]
      · exact ⟨trivial, trivial, trivial⟩
      · simp [Piece.superSites, Stmt.superSites]
  | loop condition body =>
    have wf : condition.WellFormed ∧ body.WellFormed ∧ body.declares = false := wf
    exact h.pair layout layout wf.1 wf.2.1 (.of_eq List.map_append) rfl rfl rfl rfl rfl
      (List.subset_append_left _ _) (List.subset_append_right _ _)
  | returnFrom keyword value =>
    cases value with
    | none => exact fun part mem => by cases mem
    | some e =>
      have wf : e.WellFormed := wf
      have same := state.checkReturn_scopes ctx keyword true
      refine one (h.sub (.inr layout) wf (a := []) (b := []) (.of_eq (List.append_nil _).symm)
        (state.checkReturn_walks ctx keyword true) (.refl _) rfl ?_ ?_ (List.Subset.refl _))
      · change Grown state.scopes (state.checkReturn ctx keyword true).scopes
        rw [same]
        exact .refl _
      · change Grown (state.checkReturn ctx keyword true).scopes _
        rw [h.after_scopes, same]
        exact .refl _
  | function f =>
    obtain ⟨⟨name, named, -⟩, wf⟩ :
      (∃ name, f.name = some name ∧ name.Plain) ∧ f.WellFormed := wf
    obtain ⟨_, params, body⟩ := f
    cases named
    -- The name is in scope before the function is visited, so that it can call itself.
    refine one (h.sub (.inr layout) wf (a := []) (b := []) (.of_eq (List.append_nil _).symm)
      (state.declareAndDefine_walks name) (.refl _) rfl ?_ ?_ (List.Subset.refl _))
    · change Grown state.scopes (state.declareAndDefine name).scopes
      rw [state.declareAndDefine_scopes]
      exact .withName _ _
    · change Grown (state.declareAndDefine name).scopes _
      rw [h.after_scopes, state.declareAndDefine_scopes]
      exact .refl _
  | classDecl name superclass methods =>
    cases superclass with
    | none => exact h.root_parts
    | some superclass => exact h.derived_parts

theorem parts (h : v.Ok table sites) : ∀ part ∈ v.parts, part.Ok table sites := by
  obtain ⟨ctx, owner, state, frames, piece⟩ := v
  have layout (notName : ∀ id name, piece ≠ .expr (.variable id name)) :
      Layout ctx.classKind owner frames := h.layout_of_not_name notName
  have wf := h.wellFormed
  cases piece with
  | expr e => exact h.expr_parts
  | stmt s => exact h.stmt_parts
  | exprs es =>
    cases es with
    | nil => exact fun part mem => by cases mem
    | cons e rest =>
      exact h.pair (layout (by simp)) (layout (by simp)) wf.1 wf.2 (.of_eq List.map_append) rfl rfl rfl
        rfl rfl (List.subset_append_left _ _) (List.subset_append_right _ _)
  | functions fs =>
    cases fs with
    | nil => exact fun part mem => by cases mem
    | cons f rest =>
      exact h.pair (layout (by simp)) (layout (by simp)) wf.1 wf.2 (.of_eq List.map_append) rfl rfl rfl
        rfl rfl (List.subset_append_left _ _) (List.subset_append_right _ _)
  | stmts body =>
    cases body with
    | nil => exact fun part mem => by cases mem
    | cons s rest =>
      exact h.pair (layout (by simp)) (layout (by simp)) wf.1 wf.2 (.of_eq List.map_append) rfl rfl rfl
        rfl rfl (List.subset_append_left _ _) (List.subset_append_right _ _)
  | function f =>
    obtain ⟨name, params, body⟩ := f
    have wf : (∀ p ∈ params, p.Plain) ∧ WellFormedStmts body := wf
    -- The parameters and the body share one scope.
    have scopes := declareAll_scopes params state.openScope
    have grown := Grown.foldl_withName params state.openScope.scopes
    have plain : PlainFirst (params.foldl withName state.openScope.scopes) :=
      PlainFirst.foldl_withName (fun x hx => by cases hx) wf.1
    rw [← scopes] at grown plain
    cases first : (params.foldl Resolution.declareAndDefine state.openScope).scopes with
    | nil =>
      rw [first] at grown
      cases grown
    | cons scope outer =>
      rw [first] at grown
      rw [grown.2] at first
      exact List.forall_mem_singleton.mpr (h.inside (layout (by simp)) wf.2 rfl
        ((Resolution.openScope_walks state).trans (Resolution.declareAll_walks params _))
        (Resolution.closeScope_walks _) first plain (List.Subset.refl _))

end Parts

theorem table_eq (h : v.Ok table sites) {id : RefId} {name : String} {r : Resolution}
    (mem : id ∈ v.piece.ids) (last : v.after = r.bind id name) (scopes : r.scopes = v.state.scopes)
    (fresh : r.distances[id]? = none) : table[id]? = v.state.distance? name := by
  rw [h.resolved.agree id mem, last, r.bind_distance name fresh]
  unfold Resolution.distance?
  rw [scopes]

theorem variable_distance {ctx : Context} {owner : Option Stmt} {state : Resolution}
    {frames : List Frame} {id : RefId} {name : Token}
    (h : Ok table sites ⟨ctx, owner, state, frames, .expr (.variable id name)⟩) :
    table[id]? = state.distance? name.lexeme := by
  refine h.table_eq (List.mem_singleton_self id) rfl (Resolution.reportIf_scopes ..) ?_
  rw [(Resolution.reportIf_walks ..).distances id List.not_mem_nil]
  exact h.resolved.fresh id (List.mem_singleton_self id)

theorem assign_distance {ctx : Context} {owner : Option Stmt} {state : Resolution}
    {frames : List Frame} {id : RefId} {name : Token} {e : Expr}
    (h : Ok table sites ⟨ctx, owner, state, frames, .expr (.assign id name e)⟩) :
    table[id]? = state.distance? name.lexeme := by
  have wf : name.Plain ∧ e.WellFormed := h.wellFormed
  have walk := e.resolve_walks ctx state wf.2
  have nodup : (id :: e.ids).Nodup := h.resolved.nodup
  have mem : id ∈ (Piece.expr (.assign id name e)).ids := List.mem_cons_self
  refine h.table_eq mem rfl walk.scopes ?_
  rw [walk.walks.distances id (List.nodup_cons.mp nodup).1]
  exact h.resolved.fresh id mem

theorem this_distance {ctx : Context} {owner : Option Stmt} {state : Resolution}
    {frames : List Frame} {id : RefId} {keyword : Token}
    (h : Ok table sites ⟨ctx, owner, state, frames, .expr (.this id keyword)⟩) :
    ∃ inner outer, frames = inner ++ .receiver :: outer ∧
      state.distance? "this" = some inner.length ∧ table[id]? = some inner.length := by
  have word : keyword.lexeme = "this" := h.wellFormed
  have mem : id ∈ (Piece.expr (.this id keyword)).ids := List.mem_singleton_self id
  have layout : Layout ctx.classKind owner frames := h.layout_of_not_name (by simp)
  have bound (other : ctx.classKind ≠ .none) : table[id]? = state.distance? "this" := by
    refine h.table_eq mem ?_ rfl (h.resolved.fresh id mem)
    change state.readThis ctx id keyword = _
    unfold Resolution.readThis
    split
    · exact absurd ‹_› other
    · rw [word]
    · rw [word]
  have found {inner outer : List Frame} (same : frames = inner ++ .receiver :: outer)
      (own : ∀ f ∈ inner, f.isNames) : state.distance? "this" = some inner.length :=
    (same ▸ h.fits).distance_receiver own
  cases kind : ctx.classKind with
  | none =>
    -- Outside any class the visit would have reported an error.
    have clean := h.resolved.clean
    change (state.readThis ctx id keyword).errors = [] at clean
    unfold Resolution.readThis at clean
    rw [kind] at clean
    cases clean
  | root =>
    rw [kind] at layout
    obtain ⟨inner, outer, same, own⟩ := layout
    refine ⟨inner, outer, same, found same own, ?_⟩
    rw [bound (by simp [kind]), found same own]
  | derived =>
    rw [kind] at layout
    obtain ⟨inner, declaration, outer, -, same, own⟩ := layout
    refine ⟨inner, .parent declaration :: outer, same, found same own, ?_⟩
    rw [bound (by simp [kind]), found same own]

theorem super_distance {ctx : Context} {owner : Option Stmt} {state : Resolution}
    {frames : List Frame} {id : RefId} {keyword method : Token}
    (h : Ok table sites ⟨ctx, owner, state, frames, .expr (.super id keyword method)⟩) :
    ∃ inner declaration outer, (id, declaration) ∈ sites ∧
      frames = inner ++ .receiver :: .parent declaration :: outer ∧
      state.distance? "this" = some inner.length ∧
      state.distance? "super" = some (inner.length + 1) ∧
      table[id]? = some (inner.length + 1) := by
  have word : keyword.lexeme = "super" := h.wellFormed
  have mem : id ∈ (Piece.expr (.super id keyword method)).ids := List.mem_singleton_self id
  have layout : Layout ctx.classKind owner frames := h.layout_of_not_name (by simp)
  -- In a class of any other kind, or in none, the visit would have reported an error.
  have derived : ctx.classKind = .derived := by
    have clean := h.resolved.clean
    change (state.readSuper ctx id keyword).errors = [] at clean
    unfold Resolution.readSuper at clean
    split at clean
    · cases clean
    · cases clean
    · assumption
  rw [derived] at layout
  obtain ⟨inner, declaration, outer, rfl, rfl, own⟩ := layout
  refine ⟨inner, declaration, outer, h.sites _ (List.mem_singleton_self _), rfl,
    h.fits.distance_receiver own, h.fits.distance_parent own, ?_⟩
  rw [← h.fits.distance_parent own]
  refine h.table_eq mem ?_ rfl (h.resolved.fresh id mem)
  change state.readSuper ctx id keyword = _
  unfold Resolution.readSuper
  rw [derived, word]

theorem break_inLoop {ctx : Context} {owner : Option Stmt} {state : Resolution}
    {frames : List Frame} {keyword : Token}
    (h : Ok table sites ⟨ctx, owner, state, frames, .stmt (.breakLoop keyword)⟩) :
    ctx.loopDepth ≠ 0 := by
  intro outside
  have clean := h.resolved.clean
  change (state.reportIf (ctx.loopDepth == 0) .breakOutsideLoop keyword).errors = [] at clean
  rw [outside] at clean
  cases clean

theorem return_inFunction {ctx : Context} {owner : Option Stmt} {state : Resolution}
    {frames : List Frame} {keyword : Token} {value : Option Expr}
    (h : Ok table sites ⟨ctx, owner, state, frames, .stmt (.returnFrom keyword value)⟩) :
    ctx.function ≠ .topLevel := by
  intro outside
  have clean : (state.checkReturn ctx keyword value.isSome).errors = [] := by
    have last := h.resolved.clean
    cases value with
    | none => exact last
    | some e => exact (e.resolve_walks ctx _ h.wellFormed).walks.clean last
  unfold Resolution.checkReturn at clean
  rw [outside] at clean
  cases clean

end Ok

end Visit

theorem Visits.ok {lo : RefId} {prepared : Prepared (List Stmt)} {table : Distances} {v : Visit}
    (accepted : Accepted lo prepared)
    (agree : ∀ id ∈ (Piece.stmts prepared.tree).ids, table[id]? = prepared.distances[id]?)
    (visits : Visits prepared.tree v) : v.Ok table (stmtSuperSites none prepared.tree) := by
  induction visits with
  | part _ mem ih => exact ih.parts _ mem
  | top =>
    obtain ⟨clean, distances⟩ := Resolution.result_ok accepted.resolved
    have walk := resolveStmts_walks .top prepared.tree .start accepted.wellFormed
    have scopes := Grown.foldl_afterStmt prepared.tree []
    change WalksTo _ _ _ (prepared.tree.foldl afterStmt []) at walk
    refine ⟨accepted.wellFormed, ⟨clean, fun id _ => rfl, accepted.numbered.nodup, ?_⟩, trivial, ?_,
      .inr trivial, fun site mem => mem⟩
    · intro id mem
      rw [agree id mem, ← distances]
      rfl
    · change FitAll (resolveStmts .top prepared.tree .start).scopes []
      rw [walk.scopes]
      cases last : prepared.tree.foldl afterStmt [] with
      | nil => trivial
      | cons =>
        rw [last] at scopes
        cases scopes

end Quill
