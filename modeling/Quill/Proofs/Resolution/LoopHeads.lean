import Quill.Proofs.Evaluator.ForLoops
import Quill.Proofs.Resolution.Binding
import Quill.Proofs.Tree.Shape

set_option autoImplicit false

namespace Quill

def Occurrence.within (o : Occurrence) (outer : List StaticScope) : Occurrence :=
  { o with scopes := o.scopes ++ outer }

theorem declaring_append_of_ne_nil {scopes : List StaticScope} (inside : scopes ≠ [])
    (names : List Token) (outer : List StaticScope) :
    declaring names (scopes ++ outer) = declaring names scopes ++ outer := by
  cases scopes with
  | nil => exact absurd rfl inside
  | cons scope scopes => rfl

theorem declaring_ne_nil {scopes : List StaticScope} (inside : scopes ≠ []) (names : List Token) :
    declaring names scopes ≠ [] := by
  cases scopes with
  | nil => exact absurd rfl inside
  | cons scope scopes => exact List.cons_ne_nil _ _

section Within

variable (outer : List StaticScope)

mutual

theorem Expr.occurrences_within (scopes : List StaticScope) :
    ∀ e : Expr, e.occurrences (scopes ++ outer) = (e.occurrences scopes).map (·.within outer)
  | .literal _ | .variable .. | .this .. | .super .. => rfl
  | .grouping e | .unary _ e | .get e _ => e.occurrences_within scopes
  | .assign _ _ e => congrArg _ (e.occurrences_within scopes)
  | .binary left _ right | .logical left _ right | .set left _ right => by
    simp only [Expr.occurrences, List.map_append, left.occurrences_within scopes,
      right.occurrences_within scopes]
  | .call callee _ arguments => by
    simp only [Expr.occurrences, List.map_append, callee.occurrences_within scopes,
      exprOccurrences_within scopes arguments]
  | .function f => f.occurrences_within scopes

theorem exprOccurrences_within (scopes : List StaticScope) :
    ∀ es : List Expr,
      exprOccurrences (scopes ++ outer) es = (exprOccurrences scopes es).map (·.within outer)
  | [] => rfl
  | e :: rest => by
    simp only [exprOccurrences, List.map_append, e.occurrences_within scopes,
      exprOccurrences_within scopes rest]

theorem Function.occurrences_within (scopes : List StaticScope) :
    ∀ f : Function, f.occurrences (scopes ++ outer) = (f.occurrences scopes).map (·.within outer)
  | ⟨_, params, body⟩ =>
    stmtOccurrences_within (List.cons_ne_nil (params.map Token.lexeme) scopes) body

theorem functionOccurrences_within (scopes : List StaticScope) :
    ∀ fs : List Function,
      functionOccurrences (scopes ++ outer) fs =
        (functionOccurrences scopes fs).map (·.within outer)
  | [] => rfl
  | f :: rest => by
    simp only [functionOccurrences, List.map_append, f.occurrences_within scopes,
      functionOccurrences_within scopes rest]

theorem Stmt.occurrences_within {scopes : List StaticScope} (inside : scopes ≠ []) :
    ∀ s : Stmt, s.occurrences (scopes ++ outer) = (s.occurrences scopes).map (·.within outer)
  | .expression e | .print e | .returnFrom _ (some e) => e.occurrences_within scopes
  | .var _ none | .breakLoop _ | .returnFrom _ none => rfl
  | .var name (some e) => by
    simp only [Stmt.occurrences, declaring_append_of_ne_nil inside, e.occurrences_within]
  | .block body => stmtOccurrences_within (List.cons_ne_nil [] scopes) body
  | .conditional condition thenBranch none => by
    simp only [Stmt.occurrences, List.map_append, condition.occurrences_within,
      thenBranch.occurrences_within inside]
  | .conditional condition thenBranch (some elseBranch) => by
    simp only [Stmt.occurrences, List.map_append, declaring_append_of_ne_nil inside,
      condition.occurrences_within, thenBranch.occurrences_within inside,
      elseBranch.occurrences_within (declaring_ne_nil inside _)]
  | .loop condition body => by
    simp only [Stmt.occurrences, List.map_append, condition.occurrences_within,
      body.occurrences_within inside]
  | .function f => by
    simp only [Stmt.occurrences, declaring_append_of_ne_nil inside, f.occurrences_within]
  | .classDecl name none methods => by
    simp only [Stmt.occurrences, declaring_append_of_ne_nil inside]
    exact functionOccurrences_within (["this"] :: declaring [name] scopes) methods
  | .classDecl name (some superclass) methods => by
    simp only [Stmt.occurrences, List.map_append, declaring_append_of_ne_nil inside,
      superclass.occurrences_within]
    exact congrArg _
      (functionOccurrences_within (["this"] :: ["super"] :: declaring [name] scopes) methods)

theorem stmtOccurrences_within {scopes : List StaticScope} (inside : scopes ≠ []) :
    ∀ body : List Stmt,
      stmtOccurrences (scopes ++ outer) body = (stmtOccurrences scopes body).map (·.within outer)
  | [] => rfl
  | s :: rest => by
    simp only [stmtOccurrences, List.map_append, declaring_append_of_ne_nil inside,
      s.occurrences_within inside, stmtOccurrences_within (declaring_ne_nil inside _) rest]

end

end Within

theorem boundAt_append (inner outer : List StaticScope) (x : String) (d : Nat) :
    BoundAt (inner ++ outer) x d ↔
      BoundAt inner x d ∨
        (∀ c ∈ inner, x ∉ c) ∧ ∃ d', BoundAt outer x d' ∧ d = inner.length + d' := by
  induction inner generalizing d with
  | nil => simp [boundAt_nil]
  | cons scope inner ih =>
    by_cases here : x ∈ scope
    · rw [List.cons_append, boundAt_cons_of_mem here, boundAt_cons_of_mem here]
      simp [here]
    · rw [List.cons_append, boundAt_cons_of_not_mem here, boundAt_cons_of_not_mem here]
      simp only [ih, List.forall_mem_cons, here, not_false_iff, true_and, List.length_cons]
      constructor
      · rintro ⟨d, rfl, bound | ⟨none, d', bound, rfl⟩⟩
        · exact .inl ⟨d, rfl, bound⟩
        · exact .inr ⟨none, d', bound, by omega⟩
      · rintro (⟨d, rfl, bound⟩ | ⟨none, d', bound, rfl⟩)
        · exact ⟨d, rfl, .inl bound⟩
        · exact ⟨inner.length + d', by omega, .inr ⟨none, d', bound, rfl⟩⟩

theorem Reflects.exists (bs : List (Bindings Bool)) : ∃ scopes, Reflects bs scopes := by
  induction bs with
  | nil => exact ⟨[], .nil⟩
  | cons b bs ih =>
    obtain ⟨scopes, reflects⟩ := ih
    exact ⟨b.names :: scopes, .cons (fun x => (b.mem_names_iff x).symm) reflects⟩

theorem Stmt.declarations_of_shaped {around : List Layer} :
    (s : Stmt) → ShapedIn (s.sites around) → s.declares = false → s.declarations = []
  | .expression _, _, _ | .print _, _, _ | .block _, _, _ | .breakLoop _, _, _
  | .returnFrom .., _, _ => rfl
  | .var .., _, silent | .function _, _, silent | .classDecl .., _, silent => by cases silent
  | .loop condition body, shaped, _ => by
    simp only [Stmt.sites, shapedIn_cons, shapedIn_append] at shaped
    exact body.declarations_of_shaped shaped.2.2 shaped.1
  | .conditional condition thenBranch none, shaped, _ => by
    simp only [Stmt.sites, shapedIn_cons, shapedIn_append] at shaped
    exact thenBranch.declarations_of_shaped shaped.2.2 shaped.1.1
  | .conditional condition thenBranch (some elseBranch), shaped, _ => by
    simp only [Stmt.sites, shapedIn_cons, shapedIn_append] at shaped
    have first := thenBranch.declarations_of_shaped shaped.2.2.1 shaped.1.1
    have second := elseBranch.declarations_of_shaped shaped.2.2.2 (shaped.1.2 elseBranch rfl)
    rw [declarations, first, second]
    rfl

def Occurrence.BoundFrom (o : Occurrence) (head : Resolution) (more d : Nat) : Prop :=
  BoundAt o.scopes o.name d ∨
    (∀ c ∈ o.scopes, o.name ∉ c) ∧
      ∃ d', head.distance? o.name = some d' ∧ d = o.scopes.length + (more + d')

theorem Occurrence.boundFrom_iff {head : Resolution} {scopes : List StaticScope}
    (reflects : Reflects head.scopes scopes) (o : Occurrence) (more d : Nat) :
    BoundAt (o.scopes ++ (List.replicate more [] ++ scopes)) o.name d ↔
      o.BoundFrom head more d := by
  have empty (d : Nat) : ¬BoundAt (List.replicate more []) o.name d := by
    rintro ⟨inner, scope, outer, same, -, mem, -⟩
    have blank : scope ∈ List.replicate more [] := by
      rw [same]
      exact List.mem_append_right inner List.mem_cons_self
    rw [List.eq_of_mem_replicate blank] at mem
    cases mem
  have among (c : StaticScope) (mem : c ∈ List.replicate more []) : o.name ∉ c := by
    rw [List.eq_of_mem_replicate mem]
    exact List.not_mem_nil
  unfold Occurrence.BoundFrom
  rw [boundAt_append]
  refine or_congr_right (and_congr_right fun _ => ?_)
  simp only [boundAt_append, empty, false_or, List.length_replicate, reflects.distance?]
  constructor
  · rintro ⟨_, ⟨-, d', bound, rfl⟩, rfl⟩
    exact ⟨d', bound, rfl⟩
  · rintro ⟨d', bound, rfl⟩
    exact ⟨more + d', ⟨among, d', bound, rfl⟩, rfl⟩

namespace ForLoop

def atHead (l : ForLoop) (ctx : Context) (r : Resolution) : Resolution :=
  match l.initializer with
  | none => r
  | some s => s.resolve ctx r.openScope

def headScopes (l : ForLoop) (around : List StaticScope) : List StaticScope :=
  match l.initializer with
  | none => around
  | some s => declaring s.declarations ([] :: around)

def Unmet (l : ForLoop) (r : Resolution) : Prop :=
  (l.desugared.references.map (·.id)).Nodup ∧
    ∀ t ∈ l.desugared.references, r.distances[t.id]? = none

/-- The clauses of the loop see what its head sees. The block around body and increment declares no
name, and behind the body there are no other names than before it. So, if nothing is wrong with the
loop, whatever occurs in the condition is bound as at the head, and whatever occurs in the increment
the same with that block in between. -/
structure Hygienic (l : ForLoop) : Prop where
  silent : ∀ e ∈ l.increment, declarationsOf [l.body, .expression e] = []
  scopes : ∀ ctx (r : Resolution), (l.body.resolve ctx r.openScope).scopes = r.openScope.scopes
  condition : ∀ ctx r, l.Unmet r → (l.desugared.resolve ctx r).errors = [] →
    ∀ e ∈ l.condition, ∀ o ∈ e.occurrences [], ∀ d,
      (l.desugared.resolve ctx r).distances[o.reference.id]? = some d ↔
        o.BoundFrom (l.atHead ctx r) 0 d
  increment : ∀ ctx r, l.Unmet r → (l.desugared.resolve ctx r).errors = [] →
    ∀ e ∈ l.increment, ∀ o ∈ e.occurrences [], ∀ d,
      (l.desugared.resolve ctx r).distances[o.reference.id]? = some d ↔
        o.BoundFrom (l.atHead ctx r) 1 d

variable {l : ForLoop} {around : List StaticScope} {o : Occurrence} {e : Expr}

theorem reflects_head (l : ForLoop) (ctx : Context) {r : Resolution}
    (reflects : Reflects r.scopes around) :
    Reflects (l.atHead ctx r).scopes (l.headScopes around) := by
  unfold atHead headScopes
  cases l.initializer with
  | none => exact reflects
  | some s =>
    simp only [(s.resolve_records ctx).scopes]
    exact reflects.opened.withNames s.declarations

theorem mem_desugared (mem : o ∈ (Stmt.loop (conditionOr (.literal (.boolean true)) l.condition)
      (withIncrement l.body l.increment)).occurrences (l.headScopes around)) :
    o ∈ l.desugared.occurrences around := by
  unfold desugared
  rw [Grammar.desugarFor_eq]
  unfold headScopes at mem
  cases start : l.initializer with
  | none =>
    simp only [start] at mem
    exact mem
  | some s =>
    simp only [start] at mem
    exact List.mem_append_right _ (List.mem_append_left _ mem)

theorem mem_condition (here : e ∈ l.condition) (mem : o ∈ e.occurrences (l.headScopes around)) :
    o ∈ l.desugared.occurrences around := by
  refine mem_desugared (List.mem_append_left _ ?_)
  rw [here]
  exact mem

theorem mem_increment (silent : l.body.declarations = []) (here : e ∈ l.increment)
    (mem : o ∈ e.occurrences ([] :: l.headScopes around)) : o ∈ l.desugared.occurrences around := by
  refine mem_desugared (List.mem_append_right _ ?_)
  rw [here]
  refine List.mem_append_right _ (List.mem_append_left _ ?_)
  rw [silent, declaring_nil]
  exact mem

theorem recorded {ctx : Context} {r : Resolution} (unmet : l.Unmet r)
    (clean : (l.desugared.resolve ctx r).errors = []) {more : Nat}
    (stands : ∀ around o, o ∈ e.occurrences (List.replicate more [] ++ l.headScopes around) →
      o ∈ l.desugared.occurrences around) (mem : o ∈ e.occurrences []) (d : Nat) :
    (l.desugared.resolve ctx r).distances[o.reference.id]? = some d ↔
      o.BoundFrom (l.atHead ctx r) more d := by
  obtain ⟨around, reflects⟩ := Reflects.exists r.scopes
  have inside : o.within (List.replicate more [] ++ l.headScopes around) ∈
      e.occurrences (List.replicate more [] ++ l.headScopes around) := by
    have whole := e.occurrences_within (List.replicate more [] ++ l.headScopes around) []
    rw [List.nil_append] at whole
    rw [whole]
    exact List.mem_map_of_mem mem
  have right := (l.desugared.resolve_records ctx).right ⟨reflects, unmet.1, unmet.2⟩ clean
    (stands around _ inside) d
  exact right.trans (o.boundFrom_iff (l.reflects_head ctx reflects) more d)

theorem hygienic (silent : l.body.declarations = []) : l.Hygienic where
  silent e _ := by
    unfold declarationsOf
    simp only [List.flatMap_cons, silent]
    rfl
  scopes ctx r := by
    rw [(l.body.resolve_records ctx).scopes, silent]
    rfl
  condition _ _ unmet clean _ here _ mem :=
    recorded unmet clean (fun _ _ mem => mem_condition here mem) mem
  increment _ _ unmet clean _ here _ mem :=
    recorded unmet clean (fun _ _ mem => mem_increment silent here mem) mem

end ForLoop

end Quill
