import Quill.Proofs.Resolution.Placement

set_option autoImplicit false

namespace Quill

def Error.isScoping : Error → Bool
  | .binding fault _ => fault.isScoping
  | _ => false

def Node.initializes : Node → Bool
  | .stmt (.var _ (some _)) => true
  | _ => false

theorem Site.Scoped.of_nodup {s : Site} (distinct : s.scope.Nodup)
    (noVariable : s.node.initializes = false) : s.Scoped := by
  refine ⟨distinct, fun name e same => ?_⟩
  rw [same] at noVariable
  cases noVariable

theorem Site.Scoped.plain {s : Site} (none : s.scope = [])
    (noVariable : s.node.initializes = false) : s.Scoped :=
  .of_nodup (none ▸ List.nodup_nil) noVariable

theorem foldl_withName_outside (names : List Token) : names.foldl withName [] = [] := by
  induction names with
  | nil => rfl
  | cons name names ih => rw [List.foldl_cons, withName_nil, ih]

theorem foldl_withName_find (names : List Token) (scope : Bindings Bool)
    (outer : List (Bindings Bool)) :
    ∃ scope', names.foldl withName (scope :: outer) = scope' :: outer ∧
      ∀ x, scope'.find? x = if x ∈ names.map Token.lexeme then some true else scope.find? x := by
  induction names generalizing scope with
  | nil => exact ⟨scope, rfl, by simp⟩
  | cons name names ih =>
    obtain ⟨next, same, found⟩ := withName_cons scope outer name
    obtain ⟨last, same', found'⟩ := ih next
    refine ⟨last, by rw [List.foldl_cons, same, same'], fun x => ?_⟩
    rw [found', found]
    by_cases first : x = name.lexeme <;> by_cases later : x ∈ names.map Token.lexeme <;>
      simp_all

namespace Resolution

def Settled (r : Resolution) : Prop :=
  ∀ x, r.declaredHere x ≠ some false

def Free (r : Resolution) (names : List Token) : Prop :=
  r.scopes = [] ∨
    (names.map Token.lexeme).Nodup ∧ ∀ x ∈ names, r.declaredHere x.lexeme = none

def Level (r : Resolution) (around : List Layer) : Prop :=
  (∃ l ∈ around, l.isScope) ↔ r.scopes ≠ []

section After

variable {r r' : Resolution} {names : List Token}

theorem declaredHere_after (after : r'.scopes = names.foldl withName r.scopes)
    (inside : r.scopes ≠ []) (x : String) :
    r'.declaredHere x =
      if x ∈ names.map Token.lexeme then some true else r.declaredHere x := by
  obtain ⟨scope, outer, some⟩ := List.exists_cons_of_ne_nil inside
  obtain ⟨scope', same, found⟩ := foldl_withName_find names scope outer
  rw [some] at after
  unfold declaredHere
  rw [after, same, some]
  exact found x

theorem scopes_after (after : r'.scopes = names.foldl withName r.scopes) :
    r'.scopes = [] ↔ r.scopes = [] := by
  rw [after]
  cases r.scopes with
  | nil => simp [foldl_withName_outside]
  | cons scope outer =>
    obtain ⟨scope', same, -⟩ := foldl_withName_find names scope outer
    simp [same]

theorem Level.after {around : List Layer} (level : r.Level around)
    (after : r'.scopes = names.foldl withName r.scopes) : r'.Level around :=
  level.trans (not_congr (scopes_after after)).symm

theorem Settled.after (settled : r.Settled) (after : r'.scopes = names.foldl withName r.scopes) :
    r'.Settled := by
  intro x
  by_cases outside : r.scopes = []
  · have := (scopes_after after).mpr outside
    simp [declaredHere, this]
  · rw [declaredHere_after after outside]
    split
    · simp
    · exact settled x

theorem free_append (after : r'.scopes = names.foldl withName r.scopes) (more : List Token) :
    r.Free (names ++ more) ↔ r.Free names ∧ r'.Free more := by
  unfold Free
  by_cases outside : r.scopes = []
  · simp [outside, (scopes_after after).mpr outside]
  · have inside : r'.scopes ≠ [] := mt (scopes_after after).mp outside
    have found (x : String) : r'.declaredHere x = none ↔
        x ∉ names.map Token.lexeme ∧ r.declaredHere x = none := by
      rw [declaredHere_after after outside]
      split <;> simp_all
    simp only [outside, inside, false_or, found, List.map_append, List.nodup_append,
      List.forall_mem_append]
    constructor
    · rintro ⟨⟨distinct, distinct', apart⟩, free, free'⟩
      refine ⟨⟨distinct, free⟩, distinct', fun x mem => ⟨fun mem' => ?_, free' x mem⟩⟩
      exact apart _ mem' _ (List.mem_map_of_mem mem) rfl
    · rintro ⟨⟨distinct, free⟩, distinct', free'⟩
      refine ⟨⟨distinct, distinct', fun x mem y mem' same => ?_⟩, free,
        fun x mem => (free' x mem).2⟩
      obtain ⟨t, isMore, rfl⟩ := List.mem_map.mp mem'
      exact (free' t isMore).1 (same ▸ mem)

end After

def Quiet (f : Resolution → Resolution) (r : Resolution) : Prop :=
  (f r).errors.filter Error.isScoping = r.errors.filter Error.isScoping

theorem quiet_trans {f g : Resolution → Resolution} {r : Resolution}
    (first : r.errors <:+ (f r).errors) (second : (f r).errors <:+ (g (f r)).errors) :
    Quiet (fun r => g (f r)) r ↔ Quiet f r ∧ Quiet g (f r) := by
  unfold Quiet
  refine ⟨fun whole => ?_, fun ⟨quiet, quiet'⟩ => quiet'.trans quiet⟩
  have later := (second.filter Error.isScoping).length_le
  rw [whole] at later
  have same := (first.filter Error.isScoping).eq_of_length_le later
  exact ⟨same.symm, whole.trans same⟩

theorem not_quiet_report (fault : BindingFault) (scoping : fault.isScoping) (t : Token)
    (r : Resolution) : ¬Quiet (fun r => r.report fault t) r := by
  unfold Quiet report
  rw [List.filter_cons_of_pos (by exact scoping)]
  exact List.cons_ne_self _ _

theorem mark_errors (r : Resolution) (name : String) (defined : Bool) :
    (r.mark name defined).errors = r.errors := by
  unfold mark
  split <;> rfl

theorem quiet_mark (name : String) (defined : Bool) (r : Resolution) :
    Quiet (fun r => r.mark name defined) r := by
  unfold Quiet
  rw [mark_errors]

theorem quiet_declare (name : Token) (r : Resolution) :
    Quiet (fun r => r.declare name) r ↔ r.Free [name] := by
  by_cases outside : r.scopes = []
  · have none : r.declaredHere name.lexeme = none := by simp [declaredHere, outside]
    simp [Free, outside, Quiet, declare, none, mark_errors]
  · cases found : r.declaredHere name.lexeme with
    | none => simp [Free, found, Quiet, declare, mark_errors]
    | some defined =>
      have no := not_quiet_report .redeclared rfl name r
      simpa [Free, outside, found, Quiet, declare] using no

theorem declaredHere_declare {r : Resolution} {name : Token} (inside : r.scopes ≠ [])
    (none : r.declaredHere name.lexeme = none) (x : String) :
    (r.declare name).declaredHere x = if x = name.lexeme then some false else r.declaredHere x := by
  obtain ⟨scope, outer, some⟩ := List.exists_cons_of_ne_nil inside
  have marked : r.declare name = r.mark name.lexeme false := by simp [declare, none]
  rw [marked]
  simp only [mark, some, declaredHere]
  exact scope.find?_insert _ _ x

theorem reads_declared {r : Resolution} {around : List Layer} {name : Token}
    (level : r.Level around) (settled : r.Settled) (free : r.Free [name]) (e : Expr) :
    (∀ x ∈ e.reads, (r.declare name).declaredHere x.lexeme ≠ some false) ↔
      Site.Scoped ⟨around, .stmt (.var name (some e))⟩ := by
  by_cases outside : r.scopes = []
  · have closed : (r.declare name).scopes = [] := by rw [declare_scopes, outside]
    refine iff_of_true (fun x _ => by simp [declaredHere, closed]) ⟨List.nodup_nil, ?_⟩
    intro _ _ _ inside
    exact absurd outside (level.mp inside)
  have none := (free.resolve_left outside).2 name List.mem_cons_self
  have found (x : Token) : (r.declare name).declaredHere x.lexeme ≠ some false ↔
      x.lexeme ≠ name.lexeme := by
    rw [declaredHere_declare outside none]
    by_cases own : x.lexeme = name.lexeme
    · simp [own]
    · simp [own, settled x.lexeme]
  simp only [found]
  constructor
  · refine fun others => ⟨List.nodup_nil, ?_⟩
    rintro _ _ ⟨⟩ _ mem
    obtain ⟨x, mem, same⟩ := List.mem_map.mp mem
    exact others x mem same
  · intro right x mem same
    exact right.initialized name e rfl (level.mpr outside) (same ▸ List.mem_map_of_mem mem)

structure Checks (sites : List Site) (reads : List Token) (f : Resolution → Resolution) : Prop where
  grows : ∀ r, r.errors <:+ (f r).errors
  scopes : ∀ r, (f r).scopes = r.scopes
  quiet : ∀ r, Quiet f r ↔
    (∀ s ∈ sites, s.Scoped) ∧ ∀ x ∈ reads, r.declaredHere x.lexeme ≠ some false

structure Declares (sites : List Site) (around : List Layer) (names : List Token)
    (f : Resolution → Resolution) : Prop where
  grows : ∀ r, r.errors <:+ (f r).errors
  scopes : ∀ r, (f r).scopes = names.foldl withName r.scopes
  quiet : ∀ r, r.Level around → r.Settled →
    (Quiet f r ↔ (∀ s ∈ sites, s.Scoped) ∧ r.Free names)

namespace Checks

variable {a b : List Site} {xs ys : List Token} {f g : Resolution → Resolution}

theorem trans (first : Checks a xs f) (second : Checks b ys g) :
    Checks (a ++ b) (xs ++ ys) fun r => g (f r) where
  grows r := (first.grows r).trans (second.grows (f r))
  scopes r := (second.scopes (f r)).trans (first.scopes r)
  quiet r := by
    have here (x : String) : (f r).declaredHere x = r.declaredHere x := by
      unfold declaredHere
      rw [first.scopes]
    rw [quiet_trans (first.grows r) (second.grows (f r)), first.quiet, second.quiet]
    simp only [List.forall_mem_append, here]
    constructor
    · rintro ⟨⟨left, reads⟩, right, reads'⟩
      exact ⟨⟨left, right⟩, reads, reads'⟩
    · rintro ⟨⟨left, right⟩, reads, reads'⟩
      exact ⟨⟨left, reads⟩, right, reads'⟩

theorem visit {site : Site} (right : site.Scoped) (rest : Checks a xs f) :
    Checks (site :: a) xs f where
  grows := rest.grows
  scopes := rest.scopes
  quiet r := by
    rw [rest.quiet]
    simp [right]

theorem of_local {references : List Reference} (stretch : Local references f)
    (scopes : ∀ r, (f r).scopes = r.scopes) (quiet : ∀ r, Quiet f r) : Checks [] [] f :=
  ⟨stretch.suffix, scopes, fun r => by simp [quiet r]⟩

theorem refl : Checks [] [] fun r => r :=
  of_local .refl (fun _ => rfl) fun _ => rfl

theorem bind (id : RefId) (name : String) : Checks [] [] fun r => r.bind id name :=
  ⟨fun r => by simp, fun r => bind_scopes r id name, fun r => by simp [Quiet]⟩

theorem report {fault : BindingFault} (placement : fault.isScoping = false) (t : Token) :
    Checks [] [] fun r => r.report fault t :=
  of_local (.report fault t) (fun _ => rfl) fun r => by
    simp [Quiet, Resolution.report, Error.isScoping, placement]

theorem reportIf (p : Bool) {fault : BindingFault} (placement : fault.isScoping = false)
    (t : Token) : Checks [] [] fun r => r.reportIf p fault t := by
  cases p with
  | false => exact refl
  | true => exact report placement t

theorem readVariable (id : RefId) (name : Token) :
    Checks [] [name] fun r => r.readVariable id name where
  grows := (Local.readVariable ⟨.variable, name, id⟩ name).suffix
  scopes r := by simp [Resolution.readVariable]
  quiet r := by
    by_cases undefined : r.declaredHere name.lexeme = some false
    · have no := not_quiet_report .ownInitializer rfl name r
      simpa [Quiet, Resolution.readVariable, Resolution.reportIf, undefined] using no
    · simp [Quiet, Resolution.readVariable, Resolution.reportIf, undefined]

theorem readThis (ctx : Context) (id : RefId) (keyword : Token) :
    Checks [] [] fun r => r.readThis ctx id keyword := by
  unfold Resolution.readThis
  split
  · exact report rfl keyword
  · exact bind id keyword.lexeme
  · exact bind id keyword.lexeme

theorem readSuper (ctx : Context) (id : RefId) (keyword : Token) :
    Checks [] [] fun r => r.readSuper ctx id keyword := by
  unfold Resolution.readSuper
  split
  · exact report rfl keyword
  · exact report rfl keyword
  · exact bind id keyword.lexeme

theorem checkReturn (ctx : Context) (keyword : Token) (hasValue : Bool) :
    Checks [] [] fun r => r.checkReturn ctx keyword hasValue := by
  unfold Resolution.checkReturn
  split
  · exact report rfl keyword
  · exact report rfl keyword
  · exact reportIf hasValue rfl keyword
  · exact refl
  · exact refl

theorem checkInheritance (name : Token) (superclass : Expr) :
    Checks [] [] fun r => r.checkInheritance name superclass := by
  unfold Resolution.checkInheritance
  split
  · exact reportIf _ rfl _
  · exact refl

theorem shielded (inner : Checks a [] f) (word : String) :
    Checks a [] fun r => (f (r.openWith word)).closeScope where
  grows r := inner.grows (r.openWith word)
  scopes r := by
    change (f (r.openWith word)).scopes.tail = _
    rw [inner.scopes]
    rfl
  quiet r := by
    have inside := inner.quiet (r.openWith word)
    simp only [List.not_mem_nil, false_implies, implies_true, and_true] at inside ⊢
    exact inside

theorem enclosed {around : List Layer} {names : List Token} {site : Site}
    (inner : Declares a around names f) (inScope : ∃ l ∈ around, l.isScope)
    (right : site.Scoped ↔ (names.map Token.lexeme).Nodup) :
    Checks (site :: a) [] fun r => (f r.openScope).closeScope where
  grows r := inner.grows r.openScope
  scopes r := by
    change (f r.openScope).scopes.tail = _
    rw [inner.scopes, foldl_withName_tail]
    rfl
  quiet r := by
    have level : r.openScope.Level around := by simp [Level, inScope, openScope]
    have settled : r.openScope.Settled := fun x h => by cases h
    have free : r.openScope.Free names ↔ (names.map Token.lexeme).Nodup := by
      have none (x : String) : r.openScope.declaredHere x = none := rfl
      have some : r.openScope.scopes ≠ [] := List.cons_ne_nil _ _
      simp [Free, none, some]
    have := inner.quiet r.openScope level settled
    rw [free, ← right] at this
    simp only [List.forall_mem_cons, List.not_mem_nil, false_implies, implies_true, and_true]
    exact this.trans and_comm

theorem declares (checks : Checks a xs f) (around : List Layer) : Declares a around [] f where
  grows := checks.grows
  scopes := checks.scopes
  quiet r _ settled := by
    rw [checks.quiet]
    simp [Free, settled _]

end Checks

namespace Declares

variable {a b : List Site} {around : List Layer} {xs ys : List Token}
  {f g : Resolution → Resolution}

theorem trans (first : Declares a around xs f) (second : Declares b around ys g) :
    Declares (a ++ b) around (xs ++ ys) fun r => g (f r) where
  grows r := (first.grows r).trans (second.grows (f r))
  scopes r := by rw [second.scopes, first.scopes, List.foldl_append]
  quiet r level settled := by
    have after := first.scopes r
    rw [quiet_trans (first.grows r) (second.grows (f r)), first.quiet r level settled,
      second.quiet (f r) (level.after after) (settled.after after), free_append after,
      List.forall_mem_append]
    constructor
    · rintro ⟨⟨left, free⟩, right, free'⟩
      exact ⟨⟨left, right⟩, free, free'⟩
    · rintro ⟨⟨left, right⟩, free, free'⟩
      exact ⟨⟨left, free⟩, right, free'⟩

theorem visit {site : Site} (right : site.Scoped) (rest : Declares a around xs f) :
    Declares (site :: a) around xs f where
  grows := rest.grows
  scopes := rest.scopes
  quiet r level settled := by
    rw [rest.quiet r level settled]
    simp [right]

theorem inLoop (body : Declares a (.loop :: around) xs f) : Declares a around xs f where
  grows := body.grows
  scopes := body.scopes
  quiet r level settled := by
    refine body.quiet r (Iff.trans ?_ level) settled
    simp [Layer.isScope]

theorem declareAndDefine (name : Token) :
    Declares [] around [name] fun r => r.declareAndDefine name where
  grows := (Local.declareAndDefine name).suffix
  scopes r := r.declareAndDefine_scopes name
  quiet r _ _ := by
    have whole := quiet_trans (f := fun r => r.declare name) (g := fun r => r.define name)
      ((Local.declare name).suffix r) ((Local.define name).suffix (r.declare name))
    rw [Resolution.quiet_declare] at whole
    have defined : Quiet (fun r => r.define name) (r.declare name) := quiet_mark name.lexeme true _
    simp only [List.not_mem_nil, false_implies, implies_true, true_and]
    exact whole.trans (and_iff_left defined)

theorem declareAll (params : List Token) :
    Declares [] around params fun r => params.foldl Resolution.declareAndDefine r := by
  induction params with
  | nil => exact Checks.refl.declares around
  | cons param params ih => exact (declareAndDefine param).trans ih

theorem initialized {sites : List Site} {reads : List Token} {name : Token} {e : Expr}
    (value : Checks sites reads f) (same : reads = e.reads) :
    Declares (⟨around, .stmt (.var name (some e))⟩ :: sites) around [name]
      fun r => (f (r.declare name)).define name where
  grows r := (((Local.declare name).suffix r).trans (value.grows _)).trans
    ((Local.define name).suffix _)
  scopes r := by
    rw [define_scopes, value.scopes, ← define_scopes]
    exact r.declareAndDefine_scopes name
  quiet r level settled := by
    have defined : Quiet (fun r => r.define name) (f (r.declare name)) :=
      quiet_mark name.lexeme true _
    rw [quiet_trans (f := fun r => f (r.declare name)) (g := fun r => r.define name)
      (((Local.declare name).suffix r).trans (value.grows _)) ((Local.define name).suffix _),
      and_iff_left defined,
      quiet_trans (f := fun r => r.declare name) ((Local.declare name).suffix r) (value.grows _),
      quiet_declare, value.quiet, List.forall_mem_cons]
    constructor
    · rintro ⟨free, right, reads⟩
      exact ⟨⟨(reads_declared level settled free e).mp (same ▸ reads), right⟩, free⟩
    · rintro ⟨⟨own, right⟩, free⟩
      exact ⟨free, right, same ▸ (reads_declared level settled free e).mpr own⟩

end Declares

end Resolution

open Resolution (Checks Declares)

mutual

theorem Expr.resolve_checks (ctx : Context) (around : List Layer) :
    ∀ e : Expr, Checks (e.sites around) e.reads (e.resolve ctx)
  | .literal _ => Checks.refl.visit (.plain rfl rfl)
  | .grouping e | .unary _ e | .get e _ => (e.resolve_checks ctx around).visit (.plain rfl rfl)
  | .binary left _ right | .logical left _ right =>
    ((left.resolve_checks ctx around).trans (right.resolve_checks ctx around)).visit
      (.plain rfl rfl)
  | .variable id name => (Checks.readVariable id name).visit (.plain rfl rfl)
  | .assign id name value => by
    have whole := (value.resolve_checks ctx around).trans (.bind id name.lexeme)
    rw [List.append_nil, List.append_nil] at whole
    exact whole.visit (.plain rfl rfl)
  | .call callee _ arguments =>
    ((callee.resolve_checks ctx around).trans (resolveExprs_checks ctx around arguments)).visit
      (.plain rfl rfl)
  | .set object _ value =>
    ((value.resolve_checks ctx around).trans (object.resolve_checks ctx around)).visit
      (.plain rfl rfl)
  | .this id keyword => (Checks.readThis ctx id keyword).visit (.plain rfl rfl)
  | .super id keyword _ => (Checks.readSuper ctx id keyword).visit (.plain rfl rfl)
  | .function f =>
    (f.resolve_checks (ctx.inFunction .anonymous) (.anonymous :: around)
      ⟨.anonymous, List.mem_cons_self, rfl⟩).visit (.plain rfl rfl)

theorem resolveExprs_checks (ctx : Context) (around : List Layer) :
    ∀ es : List Expr, Checks (exprSites around es) (exprReads es) (resolveExprs ctx es)
  | [] => .refl
  | e :: rest => (e.resolve_checks ctx around).trans (resolveExprs_checks ctx around rest)

theorem Function.resolve_checks (ctx : Context) (around : List Layer) :
    ∀ f : Function, (∃ l ∈ around, l.isScope) → Checks (f.sites around) [] (f.resolve ctx)
  | ⟨name, params, body⟩, inScope => by
    have inner := (Declares.declareAll params).trans (resolveStmts_declares ctx around body)
    exact .enclosed inner inScope ⟨Site.Scoped.distinct, fun distinct => .of_nodup distinct rfl⟩

theorem resolveMethods_checks (ctx : Context) (around : List Layer) (inherits : Bool) :
    ∀ fs : List Function, Checks (methodSites around inherits fs) [] (resolveMethods ctx fs)
  | [] => .refl
  | f :: rest =>
    (f.resolve_checks (ctx.inFunction f.methodKind) (.method inherits f.label :: around)
      ⟨_, List.mem_cons_self, rfl⟩).trans (resolveMethods_checks ctx around inherits rest)

theorem Stmt.resolve_declares (ctx : Context) (around : List Layer) :
    ∀ s : Stmt, Declares (s.sites around) around s.declarations (s.resolve ctx)
  | .expression e | .print e =>
    ((e.resolve_checks ctx around).declares around).visit (.plain rfl rfl)
  | .var name none => (Declares.declareAndDefine name).visit (.plain rfl rfl)
  | .var name (some e) => .initialized (e.resolve_checks ctx around) rfl
  | .block body => by
    have inner := resolveStmts_declares ctx (.block :: around) body
    have block : Checks (Stmt.sites around (.block body)) [] ((Stmt.block body).resolve ctx) :=
      .enclosed inner ⟨_, List.mem_cons_self, rfl⟩
        ⟨Site.Scoped.distinct, fun distinct => .of_nodup distinct rfl⟩
    exact block.declares around
  | .conditional condition thenBranch none =>
    (((condition.resolve_checks ctx around).declares around).trans
      (thenBranch.resolve_declares ctx around)).visit (.plain rfl rfl)
  | .conditional condition thenBranch (some elseBranch) =>
    (((condition.resolve_checks ctx around).declares around).trans
      ((thenBranch.resolve_declares ctx around).trans
        (elseBranch.resolve_declares ctx around))).visit (.plain rfl rfl)
  | .loop condition body =>
    (((condition.resolve_checks ctx around).declares around).trans
      (body.resolve_declares ctx.inLoop (.loop :: around)).inLoop).visit (.plain rfl rfl)
  | .breakLoop keyword =>
    ((Checks.reportIf _ rfl keyword).declares around).visit (.plain rfl rfl)
  | .returnFrom keyword none =>
    ((Checks.checkReturn ctx keyword false).declares around).visit (.plain rfl rfl)
  | .returnFrom keyword (some e) =>
    (((Checks.checkReturn ctx keyword true).trans
      (e.resolve_checks ctx around)).declares around).visit (.plain rfl rfl)
  | .function ⟨none, params, body⟩ =>
    ((Function.resolve_checks (ctx.inFunction .function) (.function :: around) ⟨none, params, body⟩
      ⟨_, List.mem_cons_self, rfl⟩).declares around).visit (.plain rfl rfl)
  | .function ⟨some name, params, body⟩ =>
    ((Declares.declareAndDefine name).trans
      ((Function.resolve_checks (ctx.inFunction .function) (.function :: around)
        ⟨some name, params, body⟩ ⟨_, List.mem_cons_self, rfl⟩).declares around)).visit
      (.plain rfl rfl)
  | .classDecl name none methods => by
    have inner := (resolveMethods_checks (ctx.inClass .root) around false methods).shielded "this"
    exact ((Declares.declareAndDefine name).trans (inner.declares around)).visit (.plain rfl rfl)
  | .classDecl name (some superclass) methods => by
    -- Two scopes stand between the methods and the class: that of `super` and, inside it, that of
    -- `this`.
    have inner := (resolveMethods_checks (ctx.inClass .derived) around true methods).shielded "this"
    have outer := (inner.shielded "super").declares around
    have head := (Declares.declareAndDefine name).trans
      ((Checks.checkInheritance name superclass).declares around)
    have parent := (superclass.resolve_checks (ctx.inClass .derived) around).declares around
    exact (head.trans (parent.trans outer)).visit (.plain rfl rfl)

theorem resolveStmts_declares (ctx : Context) (around : List Layer) :
    ∀ body : List Stmt,
      Declares (stmtSites around body) around (declarationsOf body) (resolveStmts ctx body)
  | [] => Checks.refl.declares around
  | s :: rest => (s.resolve_declares ctx around).trans (resolveStmts_declares ctx around rest)

end

end Quill
