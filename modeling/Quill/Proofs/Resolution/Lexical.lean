import Quill.Proofs.Resolution.Scoping

set_option autoImplicit false

namespace Quill

abbrev StaticScope := List String

structure Occurrence where
  reference : Reference
  scopes : List StaticScope

def Occurrence.name (o : Occurrence) : String :=
  o.reference.token.lexeme

/-- Names declared where some scopes are around; what is declared outside all scopes is global. -/
def declaring (names : List Token) : List StaticScope → List StaticScope
  | [] => []
  | scope :: outer => (scope ++ names.map Token.lexeme) :: outer

mutual

def Expr.occurrences (scopes : List StaticScope) : Expr → List Occurrence
  | .literal _ => []
  | .grouping e | .unary _ e | .get e _ => e.occurrences scopes
  | .binary left _ right | .logical left _ right =>
    left.occurrences scopes ++ right.occurrences scopes
  | .variable id name => [⟨⟨.variable, name, id⟩, scopes⟩]
  | .assign id name value => ⟨⟨.assignment, name, id⟩, scopes⟩ :: value.occurrences scopes
  | .call callee _ arguments => callee.occurrences scopes ++ exprOccurrences scopes arguments
  | .set object _ value => object.occurrences scopes ++ value.occurrences scopes
  | .this id keyword => [⟨⟨.this, keyword, id⟩, scopes⟩]
  | .super id keyword _ => [⟨⟨.super, keyword, id⟩, scopes⟩]
  | .function f => f.occurrences scopes

def exprOccurrences (scopes : List StaticScope) : List Expr → List Occurrence
  | [] => []
  | e :: rest => e.occurrences scopes ++ exprOccurrences scopes rest

def Function.occurrences (scopes : List StaticScope) : Function → List Occurrence
  | ⟨_, params, body⟩ => stmtOccurrences (params.map Token.lexeme :: scopes) body

def functionOccurrences (scopes : List StaticScope) : List Function → List Occurrence
  | [] => []
  | f :: rest => f.occurrences scopes ++ functionOccurrences scopes rest

def Stmt.occurrences (scopes : List StaticScope) : Stmt → List Occurrence
  | .expression e | .print e | .returnFrom _ (some e) => e.occurrences scopes
  | .var _ none | .breakLoop _ | .returnFrom _ none => []
  | .var name (some e) => e.occurrences (declaring [name] scopes)
  | .block body => stmtOccurrences ([] :: scopes) body
  | .conditional condition thenBranch none =>
    condition.occurrences scopes ++ thenBranch.occurrences scopes
  | .conditional condition thenBranch (some elseBranch) =>
    condition.occurrences scopes ++ thenBranch.occurrences scopes ++
      elseBranch.occurrences (declaring thenBranch.declarations scopes)
  | .loop condition body => condition.occurrences scopes ++ body.occurrences scopes
  | .function f => f.occurrences (declaring f.name.toList scopes)
  | .classDecl name none methods =>
    functionOccurrences (["this"] :: declaring [name] scopes) methods
  | .classDecl name (some superclass) methods =>
    superclass.occurrences (declaring [name] scopes) ++
      functionOccurrences (["this"] :: ["super"] :: declaring [name] scopes) methods

def stmtOccurrences (scopes : List StaticScope) : List Stmt → List Occurrence
  | [] => []
  | s :: rest =>
    s.occurrences scopes ++ stmtOccurrences (declaring s.declarations scopes) rest

end

/-- The name is bound in the scope that lies behind so many others, and in none of those. -/
def BoundAt (scopes : List StaticScope) (x : String) (d : Nat) : Prop :=
  ∃ inner scope outer, scopes = inner ++ scope :: outer ∧ inner.length = d ∧ x ∈ scope ∧
    ∀ c ∈ inner, x ∉ c

theorem boundAt_nil (x : String) (d : Nat) : ¬BoundAt [] x d := by
  rintro ⟨inner, scope, outer, same, -⟩
  cases inner <;> cases same

theorem boundAt_cons_of_mem {scope : StaticScope} {x : String} (mem : x ∈ scope)
    (outer : List StaticScope) (d : Nat) : BoundAt (scope :: outer) x d ↔ d = 0 := by
  constructor
  · rintro ⟨inner, scope', outer', same, rfl, -, none⟩
    cases inner with
    | nil => rfl
    | cons c inner =>
      obtain ⟨rfl, -⟩ := List.cons.inj same
      exact absurd mem (none _ List.mem_cons_self)
  · rintro rfl
    exact ⟨[], scope, outer, rfl, rfl, mem, fun c mem => by cases mem⟩

theorem boundAt_cons_of_not_mem {scope : StaticScope} {x : String} (other : x ∉ scope)
    (outer : List StaticScope) (d : Nat) :
    BoundAt (scope :: outer) x d ↔ ∃ d', d = d' + 1 ∧ BoundAt outer x d' := by
  constructor
  · rintro ⟨inner, scope', outer', same, rfl, mem, none⟩
    cases inner with
    | nil =>
      obtain ⟨rfl, -⟩ := List.cons.inj same
      exact absurd mem other
    | cons c inner =>
      obtain ⟨-, rfl⟩ := List.cons.inj same
      exact ⟨inner.length, rfl, inner, scope', outer', rfl, rfl, mem,
        fun c' mem' => none c' (List.mem_cons_of_mem _ mem')⟩
  · rintro ⟨_, rfl, inner, scope', outer', rfl, rfl, mem, none⟩
    refine ⟨scope :: inner, scope', outer', rfl, rfl, mem, fun c mem' => ?_⟩
    rcases List.mem_cons.mp mem' with rfl | mem'
    · exact other
    · exact none c mem'

theorem declaring_append (a b : List Token) (scopes : List StaticScope) :
    declaring (a ++ b) scopes = declaring b (declaring a scopes) := by
  cases scopes <;> simp [declaring]

theorem declaring_nil (scopes : List StaticScope) : declaring [] scopes = scopes := by
  cases scopes <;> simp [declaring]

theorem length_declaring (names : List Token) (scopes : List StaticScope) :
    (declaring names scopes).length = scopes.length := by
  cases scopes <;> simp [declaring]

mutual

theorem Expr.occurrences_references (scopes : List StaticScope) :
    ∀ e : Expr, (e.occurrences scopes).map (·.reference) = e.references
  | .literal _ | .variable .. | .this .. | .super .. => rfl
  | .grouping e | .unary _ e | .get e _ => e.occurrences_references scopes
  | .assign _ _ e => congrArg _ (e.occurrences_references scopes)
  | .binary left _ right | .logical left _ right | .set left _ right => by
    simp [Expr.occurrences, Expr.references, left.occurrences_references scopes,
      right.occurrences_references scopes]
  | .call callee _ arguments => by
    simp [Expr.occurrences, Expr.references, callee.occurrences_references scopes,
      exprOccurrences_references scopes arguments]
  | .function f => f.occurrences_references scopes

theorem exprOccurrences_references (scopes : List StaticScope) :
    ∀ es : List Expr, (exprOccurrences scopes es).map (·.reference) = exprReferences es
  | [] => rfl
  | e :: rest => by
    simp [exprOccurrences, exprReferences, e.occurrences_references scopes,
      exprOccurrences_references scopes rest]

theorem Function.occurrences_references (scopes : List StaticScope) :
    ∀ f : Function, (f.occurrences scopes).map (·.reference) = f.references
  | ⟨_, _, body⟩ => stmtOccurrences_references _ body

theorem functionOccurrences_references (scopes : List StaticScope) :
    ∀ fs : List Function, (functionOccurrences scopes fs).map (·.reference) = functionReferences fs
  | [] => rfl
  | f :: rest => by
    simp [functionOccurrences, functionReferences, f.occurrences_references scopes,
      functionOccurrences_references scopes rest]

theorem Stmt.occurrences_references (scopes : List StaticScope) :
    ∀ s : Stmt, (s.occurrences scopes).map (·.reference) = s.references
  | .expression e | .print e | .returnFrom _ (some e) => e.occurrences_references scopes
  | .var _ none | .breakLoop _ | .returnFrom _ none => rfl
  | .var _ (some e) => e.occurrences_references _
  | .block body => stmtOccurrences_references _ body
  | .conditional condition thenBranch none => by
    simp [Stmt.occurrences, Stmt.references, condition.occurrences_references scopes,
      thenBranch.occurrences_references scopes]
  | .conditional condition thenBranch (some elseBranch) => by
    simp [Stmt.occurrences, Stmt.references, condition.occurrences_references scopes,
      thenBranch.occurrences_references scopes, elseBranch.occurrences_references _]
  | .loop condition body => by
    simp [Stmt.occurrences, Stmt.references, condition.occurrences_references scopes,
      body.occurrences_references scopes]
  | .function f => f.occurrences_references _
  | .classDecl _ none methods => functionOccurrences_references _ methods
  | .classDecl _ (some superclass) methods => by
    simp [Stmt.occurrences, Stmt.references, superclass.occurrences_references _,
      functionOccurrences_references _ methods]

theorem stmtOccurrences_references (scopes : List StaticScope) :
    ∀ body : List Stmt, (stmtOccurrences scopes body).map (·.reference) = stmtReferences body
  | [] => rfl
  | s :: rest => by
    simp [stmtOccurrences, stmtReferences, s.occurrences_references scopes,
      stmtOccurrences_references _ rest]

end

theorem stmtOccurrences_append (scopes : List StaticScope) (body later : List Stmt) :
    stmtOccurrences scopes (body ++ later) =
      stmtOccurrences scopes body ++ stmtOccurrences (declaring (declarationsOf body) scopes) later := by
  induction body generalizing scopes with
  | nil => simp [stmtOccurrences, declarationsOf, declaring_nil]
  | cons s body ih =>
    simp [stmtOccurrences, ih, declarationsOf, declaring_append]

def Around (names : List Token) (scopes : List StaticScope) (occurrences : List Occurrence) : Prop :=
  ∀ o ∈ occurrences, scopes.length ≤ o.scopes.length ∧
    (o.scopes.length = scopes.length → ∃ k, o.scopes = declaring (names.take k) scopes)

namespace Around

variable {names more : List Token} {scopes : List StaticScope} {a b : List Occurrence}

theorem nil : Around names scopes [] :=
  fun _ mem => by cases mem

theorem append (left : Around names scopes a) (right : Around names scopes b) :
    Around names scopes (a ++ b) :=
  fun o mem => (List.mem_append.mp mem).elim (left o) (right o)

theorem single (reference : Reference) : Around names scopes [⟨reference, scopes⟩] := by
  intro o mem
  rw [List.mem_singleton.mp mem]
  exact ⟨Nat.le_refl _, fun _ => ⟨0, (declaring_nil scopes).symm⟩⟩

theorem deeper {inner : List StaticScope} (longer : scopes.length < inner.length)
    (around : Around more inner a) : Around names scopes a := by
  intro o mem
  have le := (around o mem).1
  exact ⟨by omega, fun same => by omega⟩

theorem grow (around : Around names scopes a) (more : List Token) :
    Around (names ++ more) scopes a := by
  intro o mem
  obtain ⟨le, here⟩ := around o mem
  refine ⟨le, fun same => ?_⟩
  obtain ⟨k, same'⟩ := here same
  refine ⟨min k names.length, ?_⟩
  rw [same', List.take_append_of_le_length (Nat.min_le_right _ _), ← List.take_eq_take_min]

theorem shift (around : Around more (declaring names scopes) a) :
    Around (names ++ more) scopes a := by
  intro o mem
  obtain ⟨le, here⟩ := around o mem
  rw [length_declaring] at le here
  refine ⟨le, fun same => ?_⟩
  obtain ⟨k, same'⟩ := here same
  refine ⟨names.length + k, ?_⟩
  rw [same', ← declaring_append, List.take_length_add_append]

end Around

mutual

theorem Expr.occurrences_around (scopes : List StaticScope) :
    ∀ e : Expr, Around [] scopes (e.occurrences scopes)
  | .literal _ => .nil
  | .variable .. | .this .. | .super .. => .single _
  | .grouping e | .unary _ e | .get e _ => e.occurrences_around scopes
  | .assign _ _ e => Around.append (.single _) (e.occurrences_around scopes)
  | .binary left _ right | .logical left _ right | .set left _ right =>
    (left.occurrences_around scopes).append (right.occurrences_around scopes)
  | .call callee _ arguments =>
    (callee.occurrences_around scopes).append (exprOccurrences_around scopes arguments)
  | .function f => f.occurrences_around [] scopes

theorem exprOccurrences_around (scopes : List StaticScope) :
    ∀ es : List Expr, Around [] scopes (exprOccurrences scopes es)
  | [] => .nil
  | e :: rest => (e.occurrences_around scopes).append (exprOccurrences_around scopes rest)

theorem Function.occurrences_around (names : List Token) (scopes : List StaticScope) :
    ∀ f : Function, Around names scopes (f.occurrences scopes)
  | ⟨_, _, body⟩ => (stmtOccurrences_around _ body).deeper (Nat.lt_succ_self _)

theorem functionOccurrences_around (names : List Token) (scopes : List StaticScope) :
    ∀ fs : List Function, Around names scopes (functionOccurrences scopes fs)
  | [] => .nil
  | f :: rest =>
    (f.occurrences_around names scopes).append (functionOccurrences_around names scopes rest)

theorem Stmt.occurrences_around (scopes : List StaticScope) :
    ∀ s : Stmt, Around s.declarations scopes (s.occurrences scopes)
  | .expression e | .print e | .returnFrom _ (some e) => e.occurrences_around scopes
  | .var _ none | .breakLoop _ | .returnFrom _ none => .nil
  | .var name (some e) => (e.occurrences_around _).shift
  | .block body => (stmtOccurrences_around _ body).deeper (Nat.lt_succ_self _)
  | .conditional condition thenBranch none =>
    ((condition.occurrences_around scopes).grow _).append (thenBranch.occurrences_around scopes)
  | .conditional condition thenBranch (some elseBranch) =>
    (((condition.occurrences_around scopes).grow _).append
      ((thenBranch.occurrences_around scopes).grow _)).append
      (elseBranch.occurrences_around _).shift
  | .loop condition body =>
    ((condition.occurrences_around scopes).grow _).append (body.occurrences_around scopes)
  | .function f => by
    have whole := (f.occurrences_around [] (declaring f.name.toList scopes)).shift
    rw [List.append_nil] at whole
    exact whole
  | .classDecl name none methods =>
    (functionOccurrences_around [] _ methods).deeper (by simp [length_declaring])
  | .classDecl name (some superclass) methods =>
    (superclass.occurrences_around _).shift.append
      ((functionOccurrences_around [] _ methods).deeper (by simp only [List.length_cons, length_declaring]; omega))

theorem stmtOccurrences_around (scopes : List StaticScope) :
    ∀ body : List Stmt, Around (declarationsOf body) scopes (stmtOccurrences scopes body)
  | [] => .nil
  | s :: rest =>
    ((s.occurrences_around scopes).grow _).append (stmtOccurrences_around _ rest).shift

end

end Quill
