import Quill.Grammar.Program

set_option autoImplicit false

namespace Quill

structure Cursor.Invariant where
  Holds : Cursor → Prop
  Thrown : Error → Prop
  ahead : ∀ {c : Cursor} (tokens : List Token), Holds c → Holds { c with ahead := tokens }
  count : ∀ {c : Cursor}, Holds c → Holds { c with nextId := c.nextId + 1 }
  report : ∀ {c : Cursor} {e : Error}, Holds c → Thrown e → Holds (c.report e)
  syntactic : ∀ (fault : SyntaxFault) (t : Token), Thrown (.syntactic fault t)

variable {I : Cursor.Invariant}

theorem Cursor.Invariant.synchronize {c : Cursor} (holds : I.Holds c) : I.Holds c.synchronize := by
  unfold Cursor.synchronize
  split
  next => exact holds
  next => exact I.ahead _ holds

def Parser.Keeps (I : Cursor.Invariant) {α : Type} (p : Parser α) : Prop :=
  ∀ c : Cursor, I.Holds c →
    match p c with
    | .ok _ c' => I.Holds c'
    | .error e c' => I.Thrown e ∧ I.Holds c'

namespace Parser.Keeps

variable {α β : Type} {p : Parser α}

theorem of_reading (reads : ∀ c, ∃ x tokens, p c = .ok x { c with ahead := tokens }) :
    Keeps I p := by
  intro c holds
  obtain ⟨x, tokens, run⟩ := reads c
  rw [run]
  exact I.ahead tokens holds

theorem pure (x : α) : Keeps I (Pure.pure x : Parser α) :=
  fun _ holds => holds

theorem fail (fault : SyntaxFault) : Keeps I (Parser.fail fault : Parser α) :=
  fun c holds => ⟨I.syntactic fault c.here, holds⟩

theorem reportAt (t : Token) (fault : SyntaxFault) : Keeps I (Parser.reportAt t fault) :=
  fun _ holds => I.report holds (I.syntactic fault t)

theorem reportHere (fault : SyntaxFault) : Keeps I (Parser.reportHere fault) :=
  fun c holds => I.report holds (I.syntactic fault c.here)

theorem freshId : Keeps I Parser.freshId :=
  fun _ holds => I.count holds

theorem skip : Keeps I Parser.skip :=
  of_reading fun _ => ⟨_, _, rfl⟩

theorem remaining : Keeps I Parser.remaining :=
  of_reading fun _ => ⟨_, _, rfl⟩

theorem atEnd : Keeps I Parser.atEnd :=
  of_reading fun _ => ⟨_, _, rfl⟩

theorem get : Keeps I (MonadState.get : Parser Cursor) :=
  of_reading fun _ => ⟨_, _, rfl⟩

theorem peek? : Keeps I Parser.peek? := by
  refine of_reading fun c => ?_
  unfold Parser.peek?
  split <;> exact ⟨_, _, rfl⟩

theorem check (s : Symbol) : Keeps I (Parser.check s) := by
  refine of_reading fun c => ?_
  unfold Parser.check
  split <;> exact ⟨_, _, rfl⟩

theorem acceptAny? (symbols : List Symbol) : Keeps I (Parser.acceptAny? symbols) := by
  refine of_reading fun c => ?_
  unfold Parser.acceptAny?
  split
  · exact ⟨_, _, rfl⟩
  · split <;> exact ⟨_, _, rfl⟩

theorem accept? (s : Symbol) : Keeps I (Parser.accept? s) :=
  acceptAny? [s]

theorem bind {f : α → Parser β} (first : Keeps I p) (next : ∀ x, Keeps I (f x)) :
    Keeps I (p >>= f) := by
  intro c holds
  have read := first c holds
  change match EStateM.bind p f c with | .ok _ c' => _ | .error e c' => _
  unfold EStateM.bind
  cases result : p c with
  | ok x c' =>
    rw [result] at read
    exact next x c' read
  | error e c' =>
    rw [result] at read
    exact read

theorem map (f : α → β) (first : Keeps I p) : Keeps I (f <$> p) := by
  rw [map_eq_pure_bind]
  exact first.bind fun x => pure (f x)

theorem behind {q : Parser β} (first : Keeps I p) (next : Keeps I q) : Keeps I (p *> q) := by
  rw [seqRight_eq_bind]
  exact first.bind fun _ => next

theorem expect (s : Symbol) (fault : SyntaxFault) : Keeps I (Parser.expect s fault) := by
  refine (accept? s).bind fun found => ?_
  cases found with
  | some t => exact pure t
  | none => exact fail fault

theorem expectName (role : NameRole) : Keeps I (Parser.expectName role) :=
  expect .identifier _

theorem expectAt (s : Symbol) (place : Place) : Keeps I (Parser.expectAt s place) :=
  expect s _

end Parser.Keeps

namespace Grammar

open Parser.Keeps

structure Keeps (I : Cursor.Invariant) (g : Grammar) : Prop where
  expression : Parser.Keeps I g.expression
  statement : Parser.Keeps I g.statement
  declaration : Parser.Keeps I g.declaration

section Lists

variable {α : Type} {item : Parser α}

theorem items_round_keeps {tooMany : SyntaxFault} (each : Parser.Keeps I item) {n : Nat}
    {found : List α} (others : ∀ found, Parser.Keeps I (items tooMany item n found)) :
    Parser.Keeps I (do
      let x ← item
      match ← Parser.accept? .comma with
      | some _ => items tooMany item n (x :: found)
      | none => Pure.pure (x :: found).reverse) := by
  refine each.bind fun x => (accept? .comma).bind fun comma => ?_
  cases comma with
  | some _ => exact others _
  | none => exact pure _

theorem items_keeps (tooMany : SyntaxFault) (each : Parser.Keeps I item) (n : Nat)
    (found : List α) : Parser.Keeps I (items tooMany item n found) := by
  induction n generalizing found with
  | zero => exact pure _
  | succ n ih =>
    unfold items
    by_cases many : maxItems ≤ found.length
    · simp only [many, if_true]
      exact (reportHere tooMany).bind fun _ => items_round_keeps each ih
    · simp only [many, if_false]
      exact items_round_keeps each ih

theorem itemsBeforeParen_keeps (g : Grammar) (tooMany : SyntaxFault) (each : Parser.Keeps I item) :
    Parser.Keeps I (g.itemsBeforeParen tooMany item) := by
  refine (check .rightParen).bind fun closed => ?_
  cases closed with
  | true => exact pure _
  | false => exact items_keeps tooMany each _ _

theorem declarationsUntil_keeps {stop : Parser Bool} {declaration : Parser (Option Stmt)}
    (stops : Parser.Keeps I stop) (each : Parser.Keeps I declaration) (n : Nat) (found : List Stmt) :
    Parser.Keeps I (declarationsUntil stop declaration n found) := by
  induction n generalizing found with
  | zero => exact pure _
  | succ n ih =>
    refine stops.bind fun stopped => ?_
    cases stopped with
    | true => exact pure _
    | false =>
      refine each.bind fun s => ?_
      cases s with
      | some s => exact ih _
      | none => exact ih _

end Lists

theorem atBlockEnd_keeps : Parser.Keeps I atBlockEnd := by
  refine (check .rightBrace).bind fun closed => ?_
  cases closed with
  | true => exact pure _
  | false => exact atEnd

theorem superAccess_keeps (keyword : Token) : Parser.Keeps I (superAccess keyword) :=
  (expectAt _ _).bind fun _ => (expectName _).bind fun _ => freshId.bind fun _ => pure _

theorem superclassClause_keeps : Parser.Keeps I superclassClause := by
  refine (accept? .less).bind fun less => ?_
  cases less with
  | some _ => exact (expectName _).bind fun _ => freshId.bind fun _ => pure _
  | none => exact pure _

theorem breakStatement_keeps (keyword : Token) : Parser.Keeps I (breakStatement keyword) :=
  (expectAt _ _).bind fun _ => pure _

theorem assignTo_keeps (target : Expr) (equals : Token) (value : Expr) :
    Parser.Keeps I (assignTo target equals value) := by
  unfold assignTo
  split
  · exact freshId.map _
  · exact pure _
  · exact (reportAt equals _).bind fun _ => pure _

namespace Keeps

variable {g : Grammar} (keeps : g.Keeps I)

include keeps

theorem block : Parser.Keeps I g.block :=
  (declarationsUntil_keeps atBlockEnd_keeps keeps.declaration _ _).bind fun _ =>
    (expectAt _ _).bind fun _ => pure _

theorem functionRest (name : Option Token) (routine : Routine) :
    Parser.Keeps I (g.functionRest name routine) := by
  refine (itemsBeforeParen_keeps g _ (expectName .parameter)).bind fun params => ?_
  refine (expectAt _ _).bind fun _ => (expectAt _ _).bind fun _ => ?_
  exact keeps.block.bind fun body => pure _

theorem namedFunction (routine : Routine) : Parser.Keeps I (g.namedFunction routine) :=
  (expectName _).bind fun _ => (expectAt _ _).bind fun _ => keeps.functionRest _ routine

theorem primaryFrom (t : Token) : Parser.Keeps I (g.primaryFrom t) := by
  have anonymous : Parser.Keeps I g.anonymousFunction :=
    (expectAt _ _).bind fun _ => (keeps.functionRest none .anonymous).bind fun _ => pure _
  have grouping : Parser.Keeps I g.groupingRest :=
    keeps.expression.bind fun _ => (expectAt _ _).bind fun _ => pure _
  unfold Grammar.primaryFrom
  split
  iterate 5 exact skip.behind (pure _)
  iterate 2 exact skip.behind (freshId.map _)
  · exact skip.behind (superAccess_keeps t)
  · exact skip.behind anonymous
  · exact skip.behind grouping
  · exact fail _

theorem primary : Parser.Keeps I g.primary := by
  refine get.bind fun c => ?_
  cases c.ahead with
  | nil => exact fail _
  | cons t _ => exact keeps.primaryFrom t

theorem callRest (callee : Expr) : Parser.Keeps I (g.callRest callee) :=
  (itemsBeforeParen_keeps g _ keeps.expression).bind fun _ => (expectAt _ _).bind fun _ => pure _

theorem suffixes (n : Nat) (e : Expr) : Parser.Keeps I (g.suffixes n e) := by
  induction n generalizing e with
  | zero => exact pure e
  | succ n ih =>
    refine peek?.bind fun next => ?_
    split
    · exact skip.bind fun _ => (keeps.callRest e).bind fun _ => ih _
    · exact skip.bind fun _ => (expectName _).bind fun _ => ih _
    · exact pure e

theorem call : Parser.Keeps I g.call :=
  keeps.primary.bind fun e => keeps.suffixes _ e

theorem unary (n : Nat) : Parser.Keeps I (g.unary n) := by
  induction n with
  | zero => exact keeps.call
  | succ n ih =>
    refine (acceptAny? _).bind fun operator => ?_
    cases operator with
    | some operator => exact ih.bind fun _ => pure _
    | none => exact keeps.call

omit keeps in
theorem chain (level : Level) {operand : Parser Expr} (each : Parser.Keeps I operand) :
    Parser.Keeps I (Level.chain g level operand) := by
  have rest (n : Nat) (left : Expr) : Parser.Keeps I (level.rest operand n left) := by
    induction n generalizing left with
    | zero => exact pure left
    | succ n ih =>
      refine (acceptAny? _).bind fun operator => ?_
      cases operator with
      | some operator => exact each.bind fun _ => ih _
      | none => exact pure left
  exact each.bind fun left => rest _ left

theorem operators : Parser.Keeps I g.operators := by
  unfold Grammar.operators
  induction levels with
  | nil => exact keeps.unary _
  | cons level levels ih => exact chain level ih

theorem assignment : Parser.Keeps I g.assignment := by
  refine keeps.operators.bind fun target => (accept? .equal).bind fun equals => ?_
  cases equals with
  | some equals => exact keeps.expression.bind fun value => assignTo_keeps target equals value
  | none => exact pure target

theorem expressionStatement : Parser.Keeps I g.expressionStatement :=
  keeps.assignment.bind fun _ => (expectAt _ _).bind fun _ => pure _

theorem printStatement : Parser.Keeps I g.printStatement :=
  keeps.assignment.bind fun _ => (expectAt _ _).bind fun _ => pure _

theorem varDeclaration : Parser.Keeps I g.varDeclaration := by
  refine (expectName _).bind fun name => (accept? .equal).bind fun equals => ?_
  cases equals with
  | some _ =>
    exact (keeps.assignment.map some).bind fun _ => (expectAt _ _).bind fun _ => pure _
  | none => exact (pure _).bind fun _ => (expectAt _ _).bind fun _ => pure _

theorem optionalBefore (s : Symbol) : Parser.Keeps I (g.optionalBefore s) := by
  refine (check s).bind fun absent => ?_
  cases absent with
  | true => exact pure _
  | false => exact keeps.assignment.map some

theorem forInitializer : Parser.Keeps I g.forInitializer := by
  refine peek?.bind fun next => ?_
  split
  · exact skip.bind fun _ => pure _
  · exact skip.bind fun _ => keeps.varDeclaration.map some
  · exact keeps.expressionStatement.map some

theorem forStatement : Parser.Keeps I g.forStatement := by
  refine (expectAt _ _).bind fun _ => keeps.forInitializer.bind fun initializer => ?_
  refine (keeps.optionalBefore _).bind fun condition => (expectAt _ _).bind fun _ => ?_
  refine (keeps.optionalBefore _).bind fun increment => (expectAt _ _).bind fun _ => ?_
  exact keeps.statement.bind fun body => pure _

theorem conditionAfter (keyword : Symbol) : Parser.Keeps I (g.conditionAfter keyword) :=
  (expectAt _ _).bind fun _ => keeps.assignment.bind fun _ => (expectAt _ _).bind fun _ => pure _

theorem ifStatement : Parser.Keeps I g.ifStatement := by
  refine (keeps.conditionAfter _).bind fun condition => keeps.statement.bind fun thenBranch => ?_
  refine (accept? .elseKw).bind fun elseKw => ?_
  cases elseKw with
  | some _ => exact keeps.statement.bind fun _ => pure _
  | none => exact pure _

theorem statementRule : Parser.Keeps I g.statementRule := by
  refine get.bind fun c => peek?.bind fun next => ?_
  have loop : Parser.Keeps I g.whileStatement :=
    (keeps.conditionAfter _).bind fun _ => keeps.statement.bind fun _ => pure _
  have leave : Parser.Keeps I (g.returnStatement c.here) :=
    (keeps.optionalBefore _).bind fun _ => (expectAt _ _).bind fun _ => pure _
  split
  · exact skip.bind fun _ => keeps.forStatement
  · exact skip.bind fun _ => keeps.ifStatement
  · exact skip.bind fun _ => loop
  · exact skip.bind fun _ => breakStatement_keeps c.here
  · exact skip.bind fun _ => leave
  · exact skip.bind fun _ => keeps.block.map _
  · exact skip.bind fun _ => keeps.printStatement
  · exact keeps.expressionStatement

theorem methods (n : Nat) (found : List Function) : Parser.Keeps I (g.methods n found) := by
  induction n generalizing found with
  | zero => exact pure _
  | succ n ih =>
    refine atBlockEnd_keeps.bind fun closed => ?_
    cases closed with
    | true => exact pure _
    | false => exact (keeps.namedFunction .method).bind fun f => ih _

theorem classDeclaration : Parser.Keeps I g.classDeclaration := by
  refine (expectName _).bind fun name => superclassClause_keeps.bind fun superclass => ?_
  refine (expectAt _ _).bind fun _ => (keeps.methods _ _).bind fun found => ?_
  exact (expectAt _ _).bind fun _ => pure _

theorem declarationBody : Parser.Keeps I g.declarationBody := by
  refine get.bind fun c => ?_
  cases startsFunction c.ahead with
  | true => exact skip.bind fun _ => (keeps.namedFunction .function).map _
  | false =>
    refine peek?.bind fun next => ?_
    split
    · exact skip.bind fun _ => keeps.classDeclaration
    · exact skip.bind fun _ => keeps.varDeclaration
    · exact keeps.statementRule

theorem declarationRule : Parser.Keeps I g.declarationRule := by
  intro c before
  have read := keeps.declarationBody c before
  unfold Grammar.declarationRule
  cases result : g.declarationBody c with
  | ok s c' =>
    rw [result] at read
    exact read
  | error e c' =>
    rw [result] at read
    exact Cursor.Invariant.synchronize (I.report read.2 read.1)

end Keeps

theorem upTo_keeps (n : Nat) : (upTo n).Keeps I := by
  induction n with
  | zero => exact ⟨fail _, fail _, fun c before => I.report before (I.syntactic _ _)⟩
  | succ n ih => exact ⟨ih.assignment, ih.statementRule, ih.declarationRule⟩

end Grammar

theorem programRule_keeps : Parser.Keeps I programRule :=
  Parser.Keeps.remaining.bind fun n =>
    Grammar.declarationsUntil_keeps .atEnd (Grammar.upTo_keeps n).declaration n []

theorem loneExpressionRule_keeps : Parser.Keeps I loneExpressionRule := by
  refine Parser.Keeps.remaining.bind fun n => (Grammar.upTo_keeps n).expression.bind fun e => ?_
  refine Parser.Keeps.atEnd.bind fun ended => ?_
  cases ended with
  | true => exact .pure e
  | false => exact .fail _

def Cursor.countingFrom (lo : RefId) : Cursor.Invariant where
  Holds c := lo ≤ c.nextId
  Thrown _ := True
  ahead _ le := le
  count le := Nat.le_succ_of_le le
  report le _ := le
  syntactic _ _ := trivial

theorem Parser.Keeps.nextId_le {α : Type} {p : Parser α}
    (keeps : ∀ lo, Keeps (Cursor.countingFrom lo) p) (c : Cursor) :
    c.nextId ≤ (p.after c).nextId := by
  have kept := keeps c.nextId c (Nat.le_refl _)
  unfold Parser.after
  cases result : p c with
  | ok x c' =>
    rw [result] at kept
    exact kept
  | error e c' =>
    rw [result] at kept
    exact kept.2

end Quill
