import Quill.Proofs.Grammar.Program
import Quill.Proofs.Resolution.Accepted
import Quill.Proofs.Resolution.Lexical

set_option autoImplicit false

namespace Quill

inductive Reflects : List (Bindings Bool) → List StaticScope → Prop where
  | nil : Reflects [] []
  | cons {b : Bindings Bool} {c : StaticScope} {bs : List (Bindings Bool)} {cs : List StaticScope} :
      (∀ x, b.contains x ↔ x ∈ c) → Reflects bs cs → Reflects (b :: bs) (c :: cs)

namespace Reflects

variable {bs : List (Bindings Bool)} {r : Resolution} {scopes : List StaticScope}

theorem withNames (reflects : Reflects bs scopes) (names : List Token) :
    Reflects (names.foldl withName bs) (declaring names scopes) := by
  cases reflects with
  | nil =>
    rw [foldl_withName_outside]
    exact .nil
  | @cons b c bs cs same rest =>
    obtain ⟨b', outcome, found⟩ := foldl_withName_find names b bs
    rw [outcome]
    refine .cons (fun x => ?_) rest
    have known := same x
    simp only [Bindings.contains_iff] at known ⊢
    rw [found, List.mem_append, ← known]
    by_cases new : x ∈ names.map Token.lexeme <;> simp [new]

theorem declare (reflects : Reflects r.scopes scopes) (name : Token) :
    Reflects (r.declare name).scopes (declaring [name] scopes) := by
  rw [Resolution.declare_scopes]
  generalize r.scopes = bs at reflects
  cases reflects with
  | nil => exact .nil
  | @cons b c bs cs same rest =>
    refine .cons (fun x => ?_) rest
    simp only [List.map_cons, List.map_nil, List.mem_append, List.mem_singleton, ← same]
    by_cases already : b.contains name.lexeme
    · simp only [already, if_true]
      constructor
      · exact .inl
      · rintro (old | rfl)
        · exact old
        · exact already
    · rw [if_neg already, Bindings.contains_insert, or_comm]

theorem opened (reflects : Reflects bs scopes) : Reflects ({} :: bs) ([] :: scopes) :=
  .cons (fun x => ⟨fun found => (Bool.false_ne_true found).elim, fun mem => by cases mem⟩) reflects

theorem openedWith (reflects : Reflects r.scopes scopes) (word : String) :
    Reflects (r.openWith word).scopes ([word] :: scopes) :=
  .cons (fun x => by rw [Bindings.contains_insert_empty, List.mem_singleton]) reflects

theorem distance? (reflects : Reflects r.scopes scopes) (x : String) (d : Nat) :
    r.distance? x = some d ↔ BoundAt scopes x d := by
  unfold Resolution.distance?
  generalize r.scopes = bs at reflects
  induction reflects generalizing d with
  | nil => simp [boundAt_nil]
  | @cons b c bs cs same rest ih =>
    rw [List.findIdx?_cons]
    by_cases here : x ∈ c
    · rw [boundAt_cons_of_mem here, if_pos ((same x).mpr here), Option.some.injEq, eq_comm]
    · rw [boundAt_cons_of_not_mem here, if_neg (mt (same x).mp here)]
      simp only [Option.map_eq_some_iff, ih]
      constructor
      · rintro ⟨d', bound, rfl⟩
        exact ⟨d', rfl, bound⟩
      · rintro ⟨d', rfl, bound⟩
        exact ⟨d', bound, rfl⟩

end Reflects

namespace Resolution

structure Ready (r : Resolution) (scopes : List StaticScope) (references : List Reference) :
    Prop where
  reflects : Reflects r.scopes scopes
  nodup : (references.map (·.id)).Nodup
  fresh : ∀ t ∈ references, r.distances[t.id]? = none

def Right (r : Resolution) (o : Occurrence) : Prop :=
  ∀ d, r.distances[o.reference.id]? = some d ↔ BoundAt o.scopes o.name d

structure Records (references : List Reference) (names : List Token)
    (occurrences : List StaticScope → List Occurrence) (f : Resolution → Resolution) : Prop
    extends Local references f where
  scopes : ∀ r, (f r).scopes = names.foldl withName r.scopes
  mentions : ∀ {scopes o}, o ∈ occurrences scopes → o.reference ∈ references
  right : ∀ {r scopes o}, r.Ready scopes references → (f r).errors = [] →
    o ∈ occurrences scopes → (f r).Right o

namespace Records

variable {a b : List Reference} {xs ys : List Token} {f g : Resolution → Resolution}
  {occ occ' : List StaticScope → List Occurrence}

theorem trans (first : Records a xs occ f) (second : Records b ys occ' g) :
    Records (a ++ b) (xs ++ ys) (fun s => occ s ++ occ' (declaring xs s)) fun r => g (f r) where
  toLocal := first.toLocal.trans second.toLocal
  scopes r := by rw [second.scopes, first.scopes, List.foldl_append]
  mentions mem := by
    rcases List.mem_append.mp mem with mem | mem
    · exact List.mem_append_left _ (first.mentions mem)
    · exact List.mem_append_right _ (second.mentions mem)
  right {r scopes o} ready clean mem := by
    have nodup := ready.nodup
    rw [List.map_append, List.nodup_append] at nodup
    obtain ⟨nodupA, nodupB, apart⟩ := nodup
    have elsewhere {t t' : Reference} (left : t ∈ a) (right : t' ∈ b) : t.id ≠ t'.id :=
      apart _ (List.mem_map_of_mem left) _ (List.mem_map_of_mem right)
    rcases List.mem_append.mp mem with mem | mem
    · have ready' : r.Ready scopes a :=
        ⟨ready.reflects, nodupA, fun t here => ready.fresh t (List.mem_append_left _ here)⟩
      have right := first.right ready' ((second.walks (f r)).clean clean) mem
      -- The second part does not touch what the first one has recorded.
      have outside : o.reference.id ∉ b.map (·.id) := by
        intro inside
        obtain ⟨t, there, same⟩ := List.mem_map.mp inside
        exact elsewhere (first.mentions mem) there same.symm
      unfold Right
      rw [(second.walks (f r)).distances _ outside]
      exact right
    · have reflects : Reflects (f r).scopes (declaring xs scopes) := by
        rw [first.scopes]
        exact ready.reflects.withNames xs
      refine second.right ⟨reflects, nodupB, fun t here => ?_⟩ clean mem
      have outside : t.id ∉ a.map (·.id) := by
        intro inside
        obtain ⟨t', there, same⟩ := List.mem_map.mp inside
        exact elsewhere there here same
      rw [(first.walks r).distances _ outside]
      exact ready.fresh t (List.mem_append_right _ here)

theorem before (first : Records a [] occ f) (second : Records b ys occ' g) :
    Records (a ++ b) ys (fun s => occ s ++ occ' s) fun r => g (f r) := by
  have whole := first.trans second
  simp only [declaring_nil, List.nil_append] at whole
  exact whole

theorem reorder (whole : Records a xs occ f) (perm : a.Perm b)
    (same : ∀ scopes, (occ scopes).Perm (occ' scopes)) : Records b xs occ' f where
  toLocal := whole.toLocal.mono perm.subset
  scopes := whole.scopes
  mentions mem := perm.subset (whole.mentions ((same _).symm.subset mem))
  right ready clean mem :=
    whole.right ⟨ready.reflects, (perm.map _).nodup_iff.mpr ready.nodup,
      fun t here => ready.fresh t (perm.subset here)⟩ clean ((same _).symm.subset mem)

theorem plain (stretch : Local [] f) (scopes : ∀ r, (f r).scopes = xs.foldl withName r.scopes) :
    Records [] xs (fun _ => []) f :=
  { stretch with
    scopes := scopes
    mentions := fun mem => by cases mem
    right := fun _ _ mem => by cases mem }

theorem refl : Records [] [] (fun _ => []) fun r => r :=
  plain .refl fun _ => rfl

theorem declareAndDefine (name : Token) :
    Records [] [name] (fun _ => []) fun r => r.declareAndDefine name :=
  plain (.declareAndDefine name) fun r => r.declareAndDefine_scopes name

theorem declareAll (params : List Token) :
    Records [] params (fun _ => []) fun r => params.foldl Resolution.declareAndDefine r :=
  plain (.declareAll params) fun r => declareAll_scopes params r

theorem bind (reference : Reference) :
    Records [reference] [] (fun s => [⟨reference, s⟩])
      fun r => r.bind reference.id reference.token.lexeme where
  toLocal := .bind reference _
  scopes r := bind_scopes r _ _
  mentions mem := by
    rw [List.mem_singleton.mp mem]
    exact List.mem_cons_self
  right {r _ _} ready _ mem := by
    rw [List.mem_singleton.mp mem]
    intro d
    rw [bind_distance r _ (ready.fresh reference List.mem_cons_self)]
    exact ready.reflects.distance? _ d

theorem readVariable (id : RefId) (name : Token) :
    Records [⟨.variable, name, id⟩] [] (fun s => [⟨⟨.variable, name, id⟩, s⟩])
      fun r => r.readVariable id name where
  toLocal := .readVariable ⟨.variable, name, id⟩ name
  scopes r := by simp [Resolution.readVariable]
  mentions := (bind ⟨.variable, name, id⟩).mentions
  right {r _ _} ready clean mem := by
    have scopes' := r.reportIf_scopes (r.declaredHere name.lexeme == some false) .ownInitializer name
    have distances : (r.reportIf (r.declaredHere name.lexeme == some false) .ownInitializer
        name).distances = r.distances := by
      unfold reportIf
      split <;> rfl
    refine (bind ⟨.variable, name, id⟩).right ⟨scopes' ▸ ready.reflects, ready.nodup, ?_⟩ clean mem
    exact distances ▸ ready.fresh

theorem bind_or_report {reference : Reference} {f : Resolution → Resolution}
    (stretch : Local [reference] f)
    (either : (f = fun r => r.bind reference.id reference.token.lexeme) ∨
      ∃ fault t, f = fun r => r.report fault t) :
    Records [reference] [] (fun s => [⟨reference, s⟩]) f := by
  rcases either with rfl | ⟨fault, t, rfl⟩
  · exact bind reference
  · exact { stretch with
      scopes := fun _ => rfl
      mentions := (bind reference).mentions
      right := fun _ wrong => absurd wrong (List.cons_ne_nil _ _) }

theorem readThis (ctx : Context) (id : RefId) (keyword : Token) :
    Records [⟨.this, keyword, id⟩] [] (fun s => [⟨⟨.this, keyword, id⟩, s⟩])
      fun r => r.readThis ctx id keyword := by
  apply bind_or_report (.readThis ctx ⟨.this, keyword, id⟩ keyword)
  unfold Resolution.readThis
  cases ctx.classKind with
  | none => exact .inr ⟨_, _, rfl⟩
  | root | derived => exact .inl rfl

theorem readSuper (ctx : Context) (id : RefId) (keyword : Token) :
    Records [⟨.super, keyword, id⟩] [] (fun s => [⟨⟨.super, keyword, id⟩, s⟩])
      fun r => r.readSuper ctx id keyword := by
  apply bind_or_report (.readSuper ctx ⟨.super, keyword, id⟩ keyword)
  unfold Resolution.readSuper
  cases ctx.classKind with
  | none | root => exact .inr ⟨_, _, rfl⟩
  | derived => exact .inl rfl

theorem enclosed (inner : Records a xs occ f) :
    Records a [] (fun s => occ ([] :: s)) fun r => (f r.openScope).closeScope where
  toLocal := inner.toLocal.enclosed
  scopes r := inner.outer r.openScope
  mentions mem := inner.mentions mem
  right {r _ _} ready clean mem :=
    inner.right (r := r.openScope) ⟨ready.reflects.opened, ready.nodup, ready.fresh⟩ clean mem

theorem shielded (inner : Records a [] occ f) (word : String) :
    Records a [] (fun s => occ ([word] :: s)) fun r => (f (r.openWith word)).closeScope where
  toLocal := ((Local.mark word true).trans inner.toLocal).enclosed
  scopes r := by
    change (f (r.openWith word)).scopes.tail = _
    rw [inner.scopes]
    rfl
  mentions mem := inner.mentions mem
  right {r _ _} ready clean mem :=
    inner.right (r := r.openWith word) ⟨ready.reflects.openedWith word, ready.nodup, ready.fresh⟩
      clean mem

theorem initialized (value : Records a [] occ f) (name : Token) :
    Records a [name] (fun s => occ (declaring [name] s))
      fun r => (f (r.declare name)).define name where
  toLocal := by
    have whole := ((Local.declare name).trans value.toLocal).trans (.define name)
    rw [List.append_nil] at whole
    exact whole
  scopes r := by
    rw [define_scopes, value.scopes, List.foldl_nil, ← define_scopes]
    exact r.declareAndDefine_scopes name
  mentions mem := value.mentions mem
  right {r _ _} ready clean mem := by
    have same : ((f (r.declare name)).define name).distances = (f (r.declare name)).distances := by
      unfold define mark
      split <;> rfl
    have fresh : (r.declare name).distances = r.distances := by
      unfold declare mark
      split
      · rfl
      · split <;> rfl
    have clean' := ((Local.define name).walks _).clean clean
    unfold Right
    rw [same]
    exact value.right ⟨ready.reflects.declare name, ready.nodup, fresh ▸ ready.fresh⟩ clean' mem

end Records

end Resolution

open Resolution (Local Records)

mutual

theorem Expr.resolve_records (ctx : Context) :
    ∀ e : Expr, Records e.references [] (e.occurrences ·) (e.resolve ctx)
  | .literal _ => .refl
  | .grouping e | .unary _ e | .get e _ => e.resolve_records ctx
  | .binary left _ right | .logical left _ right =>
    (left.resolve_records ctx).before (right.resolve_records ctx)
  | .variable id name => .readVariable id name
  | .assign id name value =>
    ((value.resolve_records ctx).before (.bind ⟨.assignment, name, id⟩)).reorder
      List.perm_append_comm fun _ => List.perm_append_comm
  | .call callee _ arguments =>
    (callee.resolve_records ctx).before (resolveExprs_records ctx arguments)
  | .set object _ value =>
    ((value.resolve_records ctx).before (object.resolve_records ctx)).reorder
      List.perm_append_comm fun _ => List.perm_append_comm
  | .this id keyword => .readThis ctx id keyword
  | .super id keyword _ => .readSuper ctx id keyword
  | .function f => f.resolve_records (ctx.inFunction .anonymous)

theorem resolveExprs_records (ctx : Context) :
    ∀ es : List Expr, Records (exprReferences es) [] (exprOccurrences · es) (resolveExprs ctx es)
  | [] => .refl
  | e :: rest => (e.resolve_records ctx).before (resolveExprs_records ctx rest)

theorem Function.resolve_records (ctx : Context) :
    ∀ f : Function, Records f.references [] (f.occurrences ·) (f.resolve ctx)
  | ⟨_, params, body⟩ => ((Records.declareAll params).trans (resolveStmts_records ctx body)).enclosed

theorem resolveMethods_records (ctx : Context) :
    ∀ fs : List Function,
      Records (functionReferences fs) [] (functionOccurrences · fs) (resolveMethods ctx fs)
  | [] => .refl
  | f :: rest =>
    (f.resolve_records (ctx.inFunction f.methodKind)).before (resolveMethods_records ctx rest)

theorem Stmt.resolve_records (ctx : Context) :
    ∀ s : Stmt, Records s.references s.declarations (s.occurrences ·) (s.resolve ctx)
  | .expression e | .print e => e.resolve_records ctx
  | .var name none => .declareAndDefine name
  | .var name (some e) => (e.resolve_records ctx).initialized name
  | .block body => (resolveStmts_records ctx body).enclosed
  | .conditional condition thenBranch none =>
    (condition.resolve_records ctx).before (thenBranch.resolve_records ctx)
  | .conditional condition thenBranch (some elseBranch) =>
    ((condition.resolve_records ctx).before (thenBranch.resolve_records ctx)).trans
      (elseBranch.resolve_records ctx)
  | .loop condition body =>
    (condition.resolve_records ctx).before (body.resolve_records ctx.inLoop)
  | .breakLoop keyword =>
    .plain (.reportIf _ .breakOutsideLoop keyword) fun r => r.reportIf_scopes _ _ keyword
  | .returnFrom keyword none =>
    .plain (.checkReturn ctx keyword false) fun r => r.checkReturn_scopes ctx keyword false
  | .returnFrom keyword (some e) => by
    have head : Records [] [] (fun _ => []) fun r => r.checkReturn ctx keyword true :=
      .plain (.checkReturn ctx keyword true) fun r => r.checkReturn_scopes ctx keyword true
    exact head.before (e.resolve_records ctx)
  | .function ⟨none, params, body⟩ =>
    Records.refl.trans (Function.resolve_records (ctx.inFunction .function) ⟨none, params, body⟩)
  | .function ⟨some name, params, body⟩ =>
    (Records.declareAndDefine name).trans
      (Function.resolve_records (ctx.inFunction .function) ⟨some name, params, body⟩)
  | .classDecl name none methods =>
    (Records.declareAndDefine name).trans
      ((resolveMethods_records (ctx.inClass .root) methods).shielded "this")
  | .classDecl name (some superclass) methods => by
    have inner := ((resolveMethods_records (ctx.inClass .derived) methods).shielded "this").shielded
      "super"
    have head : Records [] [name] (fun _ => []) fun r => r.inheriting name superclass :=
      .plain (.inheriting name superclass) fun r => r.inheriting_scopes name superclass
    exact head.trans ((superclass.resolve_records (ctx.inClass .derived)).before inner)

theorem resolveStmts_records (ctx : Context) :
    ∀ body : List Stmt,
      Records (stmtReferences body) (declarationsOf body) (stmtOccurrences · body)
        (resolveStmts ctx body)
  | [] => .refl
  | s :: rest => (s.resolve_records ctx).trans (resolveStmts_records ctx rest)

end

section Accepted

variable {lo hi : RefId} {tokens : List Token} {program : List Stmt} {table : Distances}

theorem parseProgram_nodup (parsed : parseProgram lo tokens = .ok (program, hi)) :
    ((stmtReferences program).map (·.id)).Nodup :=
  (parseProgram_derives parsed).2.nodup

theorem resolveProgram_right (nodup : ((stmtReferences program).map (·.id)).Nodup)
    (resolved : resolveProgram program = .ok table) {o : Occurrence}
    (mem : o ∈ stmtOccurrences [] program) (d : Nat) :
    table[o.reference.id]? = some d ↔ BoundAt o.scopes o.name d := by
  obtain ⟨clean, rfl⟩ := Resolution.result_ok resolved
  exact (resolveStmts_records .top program).right ⟨.nil, nodup, fun t _ => rfl⟩ clean mem d

theorem resolveProgram_keys (resolved : resolveProgram program = .ok table) {id : RefId}
    (recorded : id ∈ table) : id ∈ (stmtReferences program).map (·.id) :=
  Piece.mem_ids_of_recorded (p := .stmts program) resolved recorded

end Accepted

theorem declared_later {names : List Token} {x : String} {k k' : Nat}
    (inside : x ∈ (names.take k).map Token.lexeme)
    (outside : x ∉ (names.take k').map Token.lexeme) :
    ∃ i t, k' ≤ i ∧ i < k ∧ names[i]? = some t ∧ t.lexeme = x := by
  obtain ⟨t, mem, rfl⟩ := List.mem_map.mp inside
  obtain ⟨i, at'⟩ := List.mem_iff_getElem?.mp mem
  have lt : i < k := by
    have := (List.getElem?_eq_some_iff.mp at').1
    rw [List.length_take] at this
    omega
  rw [List.getElem?_take_of_lt lt] at at'
  refine ⟨i, t, ?_, lt, at', rfl⟩
  apply Nat.le_of_not_lt
  intro early
  apply outside
  apply List.mem_map_of_mem
  rw [← List.getElem?_take_of_lt early] at at'
  exact List.mem_of_getElem? at'

theorem declared_between {names : List Token} (given : StaticScope) (outer : List StaticScope)
    {k₁ k₂ : Nat} {x : String}
    (differ : ¬∀ d, BoundAt (declaring (names.take k₁) (given :: outer)) x d ↔
      BoundAt (declaring (names.take k₂) (given :: outer)) x d) :
    ∃ i t, min k₁ k₂ ≤ i ∧ i < max k₁ k₂ ∧ names[i]? = some t ∧ t.lexeme = x := by
  -- A name that both places have, or neither, is bound at the same distance from both.
  have one : ¬(x ∈ given ++ (names.take k₁).map Token.lexeme ↔
      x ∈ given ++ (names.take k₂).map Token.lexeme) := by
    intro same
    apply differ
    intro d
    unfold declaring
    by_cases here : x ∈ given ++ (names.take k₁).map Token.lexeme
    · rw [boundAt_cons_of_mem here, boundAt_cons_of_mem (same.mp here)]
    · rw [boundAt_cons_of_not_mem here, boundAt_cons_of_not_mem (mt same.mpr here)]
  simp only [List.mem_append] at one
  by_cases first : x ∈ (names.take k₁).map Token.lexeme
  · have second : x ∉ (names.take k₂).map Token.lexeme :=
      fun there => one ⟨fun _ => .inr there, fun _ => .inr first⟩
    obtain ⟨i, t, low, high, at', same⟩ := declared_later first second
    exact ⟨i, t, by omega, by omega, at', same⟩
  · have second : x ∈ (names.take k₂).map Token.lexeme := by
      apply Decidable.byContradiction
      intro there
      exact one ⟨fun h => .inl (h.resolve_right first), fun h => .inl (h.resolve_right there)⟩
    obtain ⟨i, t, low, high, at', same⟩ := declared_later second first
    exact ⟨i, t, by omega, by omega, at', same⟩

/-- For an accepted program the table says of every occurrence how many static scopes lie between it
and the innermost one that binds its name, and says nothing else. So what comes later in a scope makes
no difference, and two occurrences in one scope are bound differently only if there is a declaration
between them. -/
theorem distances_lexical {lo hi : RefId} {tokens : List Token} {program : List Stmt}
    {table : Distances} (parsed : parseProgram lo tokens = .ok (program, hi))
    (resolved : resolveProgram program = .ok table) :
    ((stmtOccurrences [] program).map (·.reference) = stmtReferences program ∧
      ((stmtReferences program).map (·.id)).Nodup) ∧
    (∀ o ∈ stmtOccurrences [] program, ∀ d,
      table[o.reference.id]? = some d ↔ BoundAt o.scopes o.name d) ∧
    (∀ id ∈ table, ∃ o ∈ stmtOccurrences [] program, o.reference.id = id) ∧
    ((∀ scopes body later, ∀ o ∈ stmtOccurrences scopes body,
        o ∈ stmtOccurrences scopes (body ++ later)) ∧
      ∀ lo' hi' tokens' program' table', parseProgram lo' tokens' = .ok (program', hi') →
        resolveProgram program' = .ok table' → ∀ o ∈ stmtOccurrences [] program,
        ∀ o' ∈ stmtOccurrences [] program', o'.name = o.name → o'.scopes = o.scopes →
          table'[o'.reference.id]? = table[o.reference.id]?) ∧
    ∀ given outer body, ∀ o₁ ∈ stmtOccurrences (given :: outer) body,
      ∀ o₂ ∈ stmtOccurrences (given :: outer) body,
      o₁ ∈ stmtOccurrences [] program → o₂ ∈ stmtOccurrences [] program →
      o₁.scopes.length = outer.length + 1 → o₂.scopes.length = outer.length + 1 →
      o₁.name = o₂.name → table[o₁.reference.id]? ≠ table[o₂.reference.id]? →
      ∃ k₁ k₂, o₁.scopes = declaring ((declarationsOf body).take k₁) (given :: outer) ∧
        o₂.scopes = declaring ((declarationsOf body).take k₂) (given :: outer) ∧
        ∃ i t, min k₁ k₂ ≤ i ∧ i < max k₁ k₂ ∧ (declarationsOf body)[i]? = some t ∧
          t.lexeme = o₁.name := by
  have nodup := parseProgram_nodup parsed
  have right {o : Occurrence} (mem : o ∈ stmtOccurrences [] program) (d : Nat) :=
    resolveProgram_right nodup resolved mem d
  have all := stmtOccurrences_references [] program
  refine ⟨⟨all, nodup⟩, fun o mem => right mem, fun id recorded => ?_, ⟨?_, ?_⟩, ?_⟩
  · have known := resolveProgram_keys resolved recorded
    rw [← all, List.map_map] at known
    obtain ⟨o, mem, same⟩ := List.mem_map.mp known
    exact ⟨o, mem, same⟩
  · intro scopes body later o mem
    rw [stmtOccurrences_append]
    exact List.mem_append_left _ mem
  · intro lo' hi' tokens' program' table' parsed' resolved' o mem o' mem' name scopes
    apply Option.ext
    intro d
    rw [right mem, resolveProgram_right (parseProgram_nodup parsed') resolved' mem', name, scopes]
  · intro given outer body o₁ here₁ o₂ here₂ mem₁ mem₂ direct₁ direct₂ name differ
    -- Each sees a prefix of what the body declares, and equal prefixes would bind them alike.
    obtain ⟨k₁, scopes₁⟩ := (stmtOccurrences_around _ body o₁ here₁).2 direct₁
    obtain ⟨k₂, scopes₂⟩ := (stmtOccurrences_around _ body o₂ here₂).2 direct₂
    refine ⟨k₁, k₂, scopes₁, scopes₂, declared_between given outer fun same => differ ?_⟩
    apply Option.ext
    intro d
    rw [right mem₁, right mem₂, scopes₁, scopes₂, ← name]
    exact same d

def shadowed : List Token :=
  [symbolToken .leftBrace, symbolToken .varKw, nameToken "a", symbolToken .semicolon,
    symbolToken .leftBrace, nameToken "a", symbolToken .semicolon,
    symbolToken .varKw, nameToken "a", symbolToken .semicolon,
    nameToken "a", symbolToken .semicolon, symbolToken .rightBrace, symbolToken .rightBrace,
    ⟨.symbol .eof, "", 1⟩]

theorem distances_lexical_shadowed :
    ∃ program hi table, parseProgram 0 shadowed = .ok (program, hi) ∧
      resolveProgram program = .ok table ∧ table[0]? = some 1 ∧ table[1]? = some 0 := by
  let a := nameToken "a"
  let inner : Stmt :=
    .block [.expression (.variable 0 a), .var a none, .expression (.variable 1 a)]
  let program : List Stmt := [.block [.var a none, inner]]
  let table : Distances := (({} : Distances).insert 0 1).insert 1 0
  have parsed : parseProgram 0 shadowed = .ok (program, 2) := by cbv
  have resolved : resolveProgram program = .ok table := by cbv
  have right := (distances_lexical parsed resolved).2.1
  refine ⟨program, 2, table, parsed, resolved, ?_, ?_⟩
  · refine (right ⟨⟨.variable, a, 0⟩, [[], ["a"]]⟩ List.mem_cons_self 1).mpr ?_
    exact ⟨[[]], ["a"], [], rfl, rfl, List.mem_cons_self, by simp⟩
  · refine (right ⟨⟨.variable, a, 1⟩, [["a"], ["a"]]⟩ (.tail _ (.head _)) 0).mpr ?_
    exact ⟨[], ["a"], [["a"]], rfl, rfl, List.mem_cons_self, by simp⟩

end Quill
