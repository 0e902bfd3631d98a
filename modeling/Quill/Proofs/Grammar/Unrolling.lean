import Quill.Proofs.Grammar.Rounds
import Quill.Proofs.Grammar.Soundness

set_option autoImplicit false

namespace Quill.Grammar

open Quill.Parser

def itemRound {α : Type} (tooMany : SyntaxFault) (item : Parser α) (found : List α) :
    Parser (Turn (List α) (List α)) := do
  if maxItems ≤ found.length then reportHere tooMany
  let x ← item
  match ← accept? .comma with
  | some _ => pure (.again (x :: found))
  | none => pure (.leave (x :: found).reverse)

def declarationRound (stop : Parser Bool) (declaration : Parser (Option Stmt))
    (found : List Stmt) : Parser (Turn (List Stmt) (List Stmt)) := do
  if ← stop then pure (.leave found.reverse)
  else
    match ← declaration with
    | some s => pure (.again (s :: found))
    | none => pure (.again found)

def methodRound (g : Grammar) (found : List Function) :
    Parser (Turn (List Function) (List Function)) := do
  if ← atBlockEnd then pure (.leave found.reverse)
  else pure (.again ((← namedFunction g .method) :: found))

def suffixRound (g : Grammar) (e : Expr) : Parser (Turn Expr Expr) := do
  match ← peek? with
  | some .leftParen => skip; pure (.again (← callRest g e))
  | some .dot => skip; pure (.again (.get e (← expectName .property)))
  | _ => pure (.leave e)

def Level.round (level : Level) (operand : Parser Expr) (left : Expr) :
    Parser (Turn Expr Expr) := do
  match ← acceptAny? level.operators with
  | some operator => pure (.again (level.node left operator (← operand)))
  | none => pure (.leave left)

def prefixed (operators : List Token) (e : Expr) : Expr :=
  operators.foldl (fun e operator => .unary operator e) e

def prefixRound (g : Grammar) (operators : List Token) : Parser (Turn (List Token) Expr) := do
  match ← acceptAny? [.bang, .minus] with
  | some operator => pure (.again (operator :: operators))
  | none => pure (.leave (prefixed operators (← call g)))

theorem items_unrolls {α : Type} (tooMany : SyntaxFault) (item : Parser α) :
    Unrolls (itemRound tooMany item) (items tooMany item) := by
  intro n found
  rw [items, itemRound]
  by_cases full : maxItems ≤ found.length
  · simp only [full, if_true, bind_assoc]
    apply bind_congr
    intro _
    apply bind_congr
    intro x
    apply bind_congr
    rintro (_ | comma) <;> simp
  · simp only [full, if_false, bind_assoc]
    apply bind_congr
    intro x
    apply bind_congr
    rintro (_ | comma) <;> simp

theorem declarationsUntil_unrolls (stop : Parser Bool) (declaration : Parser (Option Stmt)) :
    Unrolls (declarationRound stop declaration) (declarationsUntil stop declaration) := by
  intro n found
  rw [declarationsUntil, declarationRound, bind_assoc]
  apply bind_congr
  intro b
  cases b with
  | true => simp
  | false =>
    simp only [Bool.false_eq_true, if_false, bind_assoc]
    apply bind_congr
    rintro (_ | s) <;> simp

theorem methods_unrolls (g : Grammar) : Unrolls (methodRound g) (methods g) := by
  intro n found
  rw [methods, methodRound, bind_assoc]
  apply bind_congr
  rintro (_ | _) <;> simp

theorem suffixes_unrolls (g : Grammar) : Unrolls (suffixRound g) (suffixes g) := by
  intro n e
  rw [suffixes, suffixRound, bind_assoc]
  apply bind_congr
  intro o
  split <;> simp

theorem rest_unrolls (level : Level) (operand : Parser Expr) :
    Unrolls (level.round operand) (level.rest operand) := by
  intro n left
  rw [Level.rest, Level.round, bind_assoc]
  apply bind_congr
  rintro (_ | operator) <;> simp

theorem unary_unrolls (g : Grammar) :
    Unrolls (prefixRound g) fun n operators => prefixed operators <$> unary g n := by
  -- The operators read so far wait in the state, which makes a loop of the recursion.
  intro n operators
  simp only [unary, prefixRound, map_eq_pure_bind, bind_assoc]
  apply bind_congr
  rintro (_ | operator) <;> simp [prefixed]

structure Agree (n : Nat) (g g' : Grammar) : Prop where
  size : n ≤ g.size + 1
  size' : n ≤ g'.size + 1
  expression : Agrees n (fun _ => 1) g.expression g'.expression
  statement : Agrees n (fun _ => 1) g.statement g'.statement
  declaration : ∀ c, AgreesFrom c n (fun _ => min 1 c.ahead.length) g.declaration g'.declaration

section Lists

variable {α : Type} {n : Nat} {item item' : Parser α}

theorem itemRound_agrees (tooMany : SyntaxFault) (each : Agrees n (fun _ => 1) item item')
    (found : List α) :
    Agrees n (Turn.least 0) (itemRound tooMany item found) (itemRound tooMany item' found) := by
  have one : Agrees n (Turn.least 0)
      (item >>= fun x => accept? .comma >>= fun
        | some _ => pure (Turn.again (x :: found))
        | none => pure (Turn.leave (x :: found).reverse))
      (item' >>= fun x => accept? .comma >>= fun
        | some _ => pure (Turn.again (x :: found))
        | none => pure (Turn.leave (x :: found).reverse)) :=
    each.bind fun x => .acceptAny (fun _ => .pure rfl) (.pure rfl)
  unfold itemRound
  by_cases full : maxItems ≤ found.length
  · simp only [full, if_true]
    exact (Agrees.reportHere tooMany).bind fun _ => one
  · simp only [full, if_false]
    exact one

variable {g g' : Grammar}

theorem items_agrees (agree : Agree n g g') (tooMany : SyntaxFault)
    (each : Agrees n (fun _ => 1) item item') (found : List α) :
    Agrees n (fun _ => 0) (items tooMany item g.rounds found)
      (items tooMany item' g'.rounds found) := by
  have size := agree.size
  have size' := agree.size'
  apply (items_unrolls tooMany item).agrees (items_unrolls tooMany item')
    (itemRound_agrees tooMany each) fun _ => .refl
  all_goals
    unfold rounds
    omega

theorem itemsBeforeParen_agrees (agree : Agree n g g') (tooMany : SyntaxFault)
    (each : Agrees n (fun _ => 1) item item') :
    Agrees n (fun _ => 0) (itemsBeforeParen g tooMany item) (itemsBeforeParen g' tooMany item') := by
  apply Agrees.check
  rintro (_ | _)
  · exact items_agrees agree tooMany each []
  · exact .pure rfl

end Lists

theorem atEnd_look (c : Cursor) : ∃ b, atEnd c = .ok b c ∧ (b = false → c.ahead ≠ []) := by
  refine ⟨c.ahead.isEmpty, rfl, ?_⟩
  intro filled
  simpa using filled

theorem atBlockEnd_look (c : Cursor) :
    ∃ b, atBlockEnd c = .ok b c ∧ (b = false → c.ahead ≠ []) := by
  rcases c with ⟨_ | ⟨t, us⟩, last, reported, nextId⟩
  · exact ⟨true, rfl, by simp⟩
  · refine ⟨t.is .rightBrace, ?_, by simp⟩
    change (if t.is .rightBrace then pure true else atEnd : Parser Bool) _ = _
    cases t.is .rightBrace <;> rfl

section Rules

variable {n : Nat} {g g' : Grammar}

theorem declarationRound_agrees {stop : Parser Bool}
    (looks : ∀ c, ∃ b, stop c = .ok b c ∧ (b = false → c.ahead ≠ [])) (agree : Agree n g g')
    (found : List Stmt) :
    Agrees n (Turn.least 0) (declarationRound stop g.declaration found)
      (declarationRound stop g'.declaration found) := by
  intro c
  obtain ⟨b, run, filled⟩ := looks c
  apply AgreesFrom.look run
  cases b with
  | true => exact .pure rfl
  | false =>
    -- Where declarations do not stop there is a token, so the declaration reads one.
    have some := List.length_pos_iff.mpr (filled rfl)
    have first : AgreesFrom c n (fun _ => 1) g.declaration g'.declaration :=
      (agree.declaration c).le (Nat.le_refl n) fun _ => by omega
    apply first.bind
    rintro (_ | s) c' _
    · exact .pure rfl
    · exact .pure rfl

theorem block_agrees (agree : Agree n g g') : Agrees n (fun _ => 1) (block g) (block g') := by
  have size := agree.size
  have size' := agree.size'
  have body : Agrees n (fun _ => 0) (declarationsUntil atBlockEnd g.declaration g.rounds [])
      (declarationsUntil atBlockEnd g'.declaration g'.rounds []) := by
    apply (declarationsUntil_unrolls _ _).agrees (declarationsUntil_unrolls _ _)
      (declarationRound_agrees atBlockEnd_look agree) fun _ => .refl
    all_goals
      unfold rounds
      omega
  apply body.bind
  intro found
  apply (Agrees.expect .rightBrace _).bind
  intro _
  exact .pure rfl

theorem functionRest_agrees (agree : Agree n g g') (name : Option Token) (routine : Routine) :
    Agrees n (fun _ => 0) (functionRest g name routine) (functionRest g' name routine) := by
  apply (itemsBeforeParen_agrees agree _ (.expect .identifier _)).bind
  intro params
  apply (Agrees.expect .rightParen _).bind
  intro _
  apply (Agrees.expect .leftBrace _).bind
  intro _
  apply ((block_agrees agree).le (by omega) fun _ => Nat.le_refl _).bind
  intro body
  exact .pure rfl

theorem namedFunction_agrees (agree : Agree n g g') (routine : Routine) :
    Agrees n (fun _ => 1) (namedFunction g routine) (namedFunction g' routine) := by
  apply (Agrees.expect .identifier _).bind
  intro name
  apply (Agrees.expect .leftParen _).bind
  intro _
  exact (functionRest_agrees agree (some name) routine).le (by omega) fun _ => by omega

theorem superAccess_agrees (keyword : Token) :
    Agrees n (fun _ => 0) (superAccess keyword) (superAccess keyword) := by
  apply (Agrees.expect .dot _).bind
  intro _
  apply (Agrees.expect .identifier _).bind
  intro method
  exact Agrees.freshId.bind fun id => .pure rfl

theorem anonymousFunction_agrees (agree : Agree n g g') :
    Agrees n (fun _ => 0) (anonymousFunction g) (anonymousFunction g') := by
  apply (Agrees.expect .leftParen _).bind
  intro _
  apply ((functionRest_agrees agree none .anonymous).le (by omega) fun _ => Nat.le_refl _).bind
  intro f
  exact .pure rfl

theorem groupingRest_agrees (agree : Agree n g g') :
    Agrees n (fun _ => 0) (groupingRest g) (groupingRest g') := by
  apply agree.expression.bind
  intro inner
  apply (Agrees.expect .rightParen _).bind
  intro _
  exact .pure rfl

theorem primaryFrom_agrees (agree : Agree n g g') {c : Cursor} (filled : c.ahead ≠ [])
    (t : Token) : AgreesFrom c (n + 1) (fun _ => 1) (primaryFrom g t) (primaryFrom g' t) := by
  have behind {q q' : Parser Expr} (later : Agrees n (fun _ => 0) q q') :
      AgreesFrom c (n + 1) (fun _ => 1) (skip *> q) (skip *> q') :=
    AgreesFrom.skip (f := fun _ => q) (g := fun _ => q') filled later
  unfold primaryFrom
  split
  next => exact behind (.pure rfl)
  next => exact behind (.pure rfl)
  next => exact behind (.pure rfl)
  next => exact behind (.pure rfl)
  next => exact behind (.pure rfl)
  next => exact behind (Agrees.freshId.map (J := fun _ => 0) _)
  next => exact behind (Agrees.freshId.map (J := fun _ => 0) _)
  next => exact behind (superAccess_agrees t)
  next => exact behind (anonymousFunction_agrees agree)
  next => exact behind (groupingRest_agrees agree)
  next => exact Agrees.fail _ c

theorem primary_agrees (agree : Agree n g g') :
    Agrees (n + 1) (fun _ => 1) (primary g) (primary g') := by
  intro c
  rcases c with ⟨_ | ⟨t, us⟩, last, reported, nextId⟩
  · exact .of_eq (r := fail .expectedExpression) (s := fail .expectedExpression) rfl rfl
      (Agrees.fail _ _)
  · exact .of_eq (r := primaryFrom g t) (s := primaryFrom g' t) rfl rfl
      (primaryFrom_agrees agree (by simp) t)

theorem callRest_agrees (agree : Agree n g g') (callee : Expr) :
    Agrees n (fun _ => 0) (callRest g callee) (callRest g' callee) := by
  apply (itemsBeforeParen_agrees agree _ agree.expression).bind
  intro arguments
  apply (Agrees.expect .rightParen _).bind
  intro paren
  exact .pure rfl

theorem suffixRound_agrees (agree : Agree n g g') (e : Expr) :
    Agrees (n + 1) (Turn.least 0) (suffixRound g e) (suffixRound g' e) := by
  apply Agrees.peek
  intro c
  split
  next next =>
    obtain ⟨us, ahead, -⟩ := Cursor.ahead_of_next? next
    exact AgreesFrom.skip (by simp [ahead]) ((callRest_agrees agree e).bind fun e' => .pure rfl)
  next next =>
    obtain ⟨us, ahead, -⟩ := Cursor.ahead_of_next? next
    exact AgreesFrom.skip (by simp [ahead])
      ((Agrees.expect .identifier _).bind fun name => .pure rfl)
  next => exact .pure rfl

theorem call_agrees (agree : Agree n g g') : Agrees (n + 1) (fun _ => 1) (call g) (call g') := by
  have size := agree.size
  have size' := agree.size'
  apply (primary_agrees agree).bind
  intro e
  have loop : Agrees (n + 1) (fun _ => 0) (suffixes g g.rounds e) (suffixes g' g'.rounds e) := by
    apply (suffixes_unrolls g).agrees (suffixes_unrolls g') (suffixRound_agrees agree) fun _ => .refl
    all_goals
      unfold rounds
      omega
  exact loop.le (by omega) fun _ => Nat.le_refl _

theorem prefixRound_agrees (agree : Agree n g g') (operators : List Token) :
    Agrees (n + 1) (Turn.least 1) (prefixRound g operators) (prefixRound g' operators) := by
  apply Agrees.acceptAny
  · intro operator
    exact .pure rfl
  · exact (call_agrees agree).bind fun e => .pure rfl

theorem unary_agrees (agree : Agree n g g') :
    Agrees (n + 1) (fun _ => 1) (unary g g.rounds) (unary g' g'.rounds) := by
  have size := agree.size
  have size' := agree.size'
  have loop : Agrees (n + 1) (fun _ => 1) (prefixed [] <$> unary g g.rounds)
      (prefixed [] <$> unary g' g'.rounds) := by
    apply (unary_unrolls g).agrees (unary_unrolls g') (prefixRound_agrees agree)
      fun operators c => ((call_agrees agree).map (J := fun _ => 1) (prefixed operators) c).onward
    all_goals
      unfold rounds
      omega
  have none (p : Parser Expr) : prefixed [] <$> p = p := id_map p
  rwa [none, none] at loop

theorem Level.round_agrees (level : Level) {operand operand' : Parser Expr}
    (each : Agrees n (fun _ => 1) operand operand') (left : Expr) :
    Agrees n (Turn.least 0) (level.round operand left) (level.round operand' left) := by
  apply Agrees.acceptAny
  · intro operator
    exact (each.le (by omega) fun _ => Nat.le_refl _).bind fun right => .pure rfl
  · exact .pure rfl

theorem Level.chain_agrees (agree : Agree n g g') (level : Level) {operand operand' : Parser Expr}
    (each : Agrees (n + 1) (fun _ => 1) operand operand') :
    Agrees (n + 1) (fun _ => 1) (level.chain g operand) (level.chain g' operand') := by
  have size := agree.size
  have size' := agree.size'
  apply each.bind
  intro left
  have loop : Agrees (n + 1) (fun _ => 0) (level.rest operand g.rounds left)
      (level.rest operand' g'.rounds left) := by
    apply (rest_unrolls level operand).agrees (rest_unrolls level operand')
      (level.round_agrees each) fun _ => .refl
    all_goals
      unfold rounds
      omega
  exact loop.le (by omega) fun _ => Nat.le_refl _

theorem chains_agrees (agree : Agree n g g') (tighter : List Level) :
    Agrees (n + 1) (fun _ => 1) (tighter.foldr (Level.chain g) (unary g g.rounds))
      (tighter.foldr (Level.chain g') (unary g' g'.rounds)) := by
  induction tighter with
  | nil => exact unary_agrees agree
  | cons level tighter ih => exact level.chain_agrees agree ih

theorem assignTo_agrees (target : Expr) (equals : Token) (value : Expr) :
    Agrees n (fun _ => 0) (assignTo target equals value) (assignTo target equals value) := by
  unfold assignTo
  split
  next => exact Agrees.freshId.map (J := fun _ => 0) _
  next => exact .pure rfl
  next => exact (Agrees.reportAt equals _).bind fun _ => .pure rfl

theorem assignment_agrees (agree : Agree n g g') :
    Agrees (n + 1) (fun _ => 1) (assignment g) (assignment g') := by
  apply (chains_agrees agree levels).bind
  intro target
  apply Agrees.acceptAny
  · intro equals
    apply (agree.expression.le (by omega) fun _ => Nat.le_refl _).bind
    intro value
    exact assignTo_agrees target equals value
  · exact .pure rfl

theorem expressionStatement_agrees (agree : Agree n g g') :
    Agrees (n + 1) (fun _ => 1) (expressionStatement g) (expressionStatement g') := by
  apply (assignment_agrees agree).bind
  intro e
  exact (Agrees.expect .semicolon _).bind fun _ => .pure rfl

theorem printStatement_agrees (agree : Agree n g g') :
    Agrees (n + 1) (fun _ => 0) (printStatement g) (printStatement g') := by
  apply (assignment_agrees agree).bind
  intro e
  exact (Agrees.expect .semicolon _).bind fun _ => .pure rfl

theorem varDeclaration_agrees (agree : Agree n g g') :
    Agrees (n + 1) (fun _ => 0) (varDeclaration g) (varDeclaration g') := by
  apply (Agrees.expect .identifier _).bind
  intro name
  have close {m : Nat} (initializer : Option Expr) : Agrees m (fun _ => 0)
      (expectAt .semicolon .afterVariable >>= fun _ => pure (Stmt.var name initializer))
      (expectAt .semicolon .afterVariable >>= fun _ => pure (Stmt.var name initializer)) :=
    (Agrees.expect .semicolon _).bind fun _ => .pure rfl
  apply Agrees.acceptAny
  · intro equals
    have initial := (assignment_agrees agree).map (J := fun _ => 1) some
    exact (initial.le (by omega) fun _ => Nat.le_refl _).bind fun initializer => close initializer
  · exact close none

theorem optionalBefore_agrees (agree : Agree n g g') (s : Symbol) :
    Agrees (n + 1) (fun _ => 0) (optionalBefore g s) (optionalBefore g' s) := by
  apply Agrees.check
  rintro (_ | _)
  · exact ((assignment_agrees agree).map (J := fun _ => 1) some).le (Nat.le_refl _) fun _ => by omega
  · exact .pure rfl

theorem forInitializer_agrees (agree : Agree n g g') :
    Agrees (n + 1) (fun _ => 0) (forInitializer g) (forInitializer g') := by
  apply Agrees.peek
  intro c
  split
  next next =>
    obtain ⟨us, ahead, -⟩ := Cursor.ahead_of_next? next
    exact AgreesFrom.skip (by simp [ahead]) (.pure rfl)
  next next =>
    obtain ⟨us, ahead, -⟩ := Cursor.ahead_of_next? next
    have declared := (varDeclaration_agrees agree).map (J := fun _ => 0) some
    exact AgreesFrom.skip (by simp [ahead]) (declared.le (by omega) fun _ => Nat.le_refl _)
  next =>
    have stated := (expressionStatement_agrees agree).map (J := fun _ => 1) some
    exact (stated c).le (Nat.le_refl _) fun _ => by omega

theorem forStatement_agrees (agree : Agree n g g') :
    Agrees n (fun _ => 0) (forStatement g) (forStatement g') := by
  have part (s : Symbol) := optionalBefore_agrees agree s
  apply (Agrees.expect .leftParen _).bind
  intro _
  apply ((forInitializer_agrees agree).le (by omega) fun _ => Nat.le_refl _).bind
  intro initializer
  apply ((part .semicolon).le (by omega) fun _ => Nat.le_refl _).bind
  intro condition
  apply (Agrees.expect .semicolon _).bind
  intro _
  apply ((part .rightParen).le (by omega) fun _ => Nat.le_refl _).bind
  intro increment
  apply (Agrees.expect .rightParen _).bind
  intro _
  exact (agree.statement.le (by omega) fun _ => Nat.le_refl _).bind fun body => .pure rfl

theorem conditionAfter_agrees (agree : Agree n g g') (keyword : Symbol) :
    Agrees n (fun _ => 0) (conditionAfter g keyword) (conditionAfter g' keyword) := by
  apply (Agrees.expect .leftParen _).bind
  intro _
  apply ((assignment_agrees agree).le (by omega) fun _ => Nat.le_refl _).bind
  intro condition
  exact (Agrees.expect .rightParen _).bind fun _ => .pure rfl

theorem ifStatement_agrees (agree : Agree n g g') :
    Agrees n (fun _ => 0) (ifStatement g) (ifStatement g') := by
  apply (conditionAfter_agrees agree .ifKw).bind
  intro condition
  apply agree.statement.bind
  intro thenBranch
  apply Agrees.acceptAny
  · intro _
    exact (agree.statement.le (by omega) fun _ => Nat.le_refl _).bind fun elseBranch => .pure rfl
  · exact .pure rfl

theorem whileStatement_agrees (agree : Agree n g g') :
    Agrees n (fun _ => 0) (whileStatement g) (whileStatement g') := by
  apply (conditionAfter_agrees agree .whileKw).bind
  intro condition
  exact agree.statement.bind fun body => .pure rfl

theorem breakStatement_agrees (keyword : Token) :
    Agrees n (fun _ => 0) (breakStatement keyword) (breakStatement keyword) :=
  (Agrees.expect .semicolon _).bind fun _ => .pure rfl

theorem returnStatement_agrees (agree : Agree n g g') (keyword : Token) :
    Agrees (n + 1) (fun _ => 0) (returnStatement g keyword) (returnStatement g' keyword) := by
  apply (optionalBefore_agrees agree .semicolon).bind
  intro value
  exact (Agrees.expect .semicolon _).bind fun _ => .pure rfl

theorem statementRule_agrees (agree : Agree n g g') :
    Agrees (n + 1) (fun _ => 1) (statementRule g) (statementRule g') := by
  intro c
  apply AgreesFrom.of_eq (statementRule_apply g c) (statementRule_apply g' c)
  have behind {q q' : Parser Stmt} {s : Symbol} (next : c.next? = some s)
      (later : Agrees n (fun _ => 0) q q') :
      AgreesFrom c (n + 1) (fun _ => 1) (skip >>= fun _ => q) (skip >>= fun _ => q') := by
    obtain ⟨us, ahead, -⟩ := Cursor.ahead_of_next? next
    exact AgreesFrom.skip (f := fun _ => q) (g := fun _ => q') (by simp [ahead]) later
  have smaller {q q' : Parser Stmt} (later : Agrees (n + 1) (fun _ => 0) q q') :
      Agrees n (fun _ => 0) q q' :=
    later.le (by omega) fun _ => Nat.le_refl _
  unfold statementFrom
  split
  next next => exact behind next (forStatement_agrees agree)
  next next => exact behind next (ifStatement_agrees agree)
  next next => exact behind next (whileStatement_agrees agree)
  next next => exact behind next (breakStatement_agrees c.here)
  next next => exact behind next (smaller (returnStatement_agrees agree c.here))
  next next =>
    have body := (block_agrees agree).map (J := fun _ => 1) Stmt.block
    exact behind next (body.le (Nat.le_refl _) fun _ => by omega)
  next next => exact behind next (smaller (printStatement_agrees agree))
  next => exact expressionStatement_agrees agree c

theorem methodRound_agrees (agree : Agree n g g') (found : List Function) :
    Agrees n (Turn.least 0) (methodRound g found) (methodRound g' found) := by
  intro c
  obtain ⟨b, run, -⟩ := atBlockEnd_look c
  apply AgreesFrom.look run
  cases b with
  | true => exact .pure rfl
  | false => exact (namedFunction_agrees agree .method).bind (fun f => .pure rfl) c

theorem superclassClause_agrees : Agrees n (fun _ => 0) superclassClause superclassClause := by
  apply Agrees.acceptAny
  · intro _
    apply (Agrees.expect .identifier _).bind
    intro name
    exact Agrees.freshId.bind fun id => .pure rfl
  · exact .pure rfl

theorem classDeclaration_agrees (agree : Agree n g g') :
    Agrees n (fun _ => 0) (classDeclaration g) (classDeclaration g') := by
  have size := agree.size
  have size' := agree.size'
  have loop : Agrees n (fun _ => 0) (methods g g.rounds []) (methods g' g'.rounds []) := by
    apply (methods_unrolls g).agrees (methods_unrolls g') (methodRound_agrees agree) fun _ => .refl
    all_goals
      unfold rounds
      omega
  apply (Agrees.expect .identifier _).bind
  intro name
  apply superclassClause_agrees.bind
  intro superclass
  apply (Agrees.expect .leftBrace _).bind
  intro _
  apply (loop.le (by omega) fun _ => Nat.le_refl _).bind
  intro found
  exact (Agrees.expect .rightBrace _).bind fun _ => .pure rfl

theorem filled_of_startsFunction {ts : List Token} (starts : startsFunction ts) : ts ≠ [] := by
  rintro rfl
  cases starts

theorem declarationBody_agrees (agree : Agree n g g') :
    Agrees (n + 1) (fun _ => 1) (declarationBody g) (declarationBody g') := by
  intro c
  apply AgreesFrom.of_eq (declarationBody_apply g c) (declarationBody_apply g' c)
  have behind {q q' : Parser Stmt} (filled : c.ahead ≠ []) (later : Agrees n (fun _ => 0) q q') :
      AgreesFrom c (n + 1) (fun _ => 1) (skip >>= fun _ => q) (skip >>= fun _ => q') :=
    AgreesFrom.skip (f := fun _ => q) (g := fun _ => q') filled later
  unfold declarationFrom
  by_cases starts : startsFunction c.ahead
  · simp only [starts, if_true]
    have function := (namedFunction_agrees agree .function).map (J := fun _ => 1) Stmt.function
    exact behind (filled_of_startsFunction starts)
      (function.le (Nat.le_refl _) fun _ => by omega)
  · simp only [starts, Bool.false_eq_true, if_false]
    split
    next next =>
      obtain ⟨us, ahead, -⟩ := Cursor.ahead_of_next? next
      exact behind (by simp [ahead]) (classDeclaration_agrees agree)
    next next =>
      obtain ⟨us, ahead, -⟩ := Cursor.ahead_of_next? next
      exact behind (by simp [ahead])
        ((varDeclaration_agrees agree).le (by omega) fun _ => Nat.le_refl _)
    next => exact statementRule_agrees agree c

theorem declarationRule_agrees (agree : Agree n g g') (c : Cursor) :
    AgreesFrom c (n + 1) (fun _ => min 1 c.ahead.length) (declarationRule g)
      (declarationRule g') := by
  have body := declarationBody_agrees agree c
  have onward := body.onward
  cases run : declarationBody g c with
  | ok s c' =>
    rw [after_ok run] at onward
    have whole : declarationRule g c = .ok (some s) c' := by simp [declarationRule, run]
    refine ⟨by rwa [after_ok whole], fun short => ?_, fun short x c'' run' => ?_⟩
    · rw [body.same short] at run
      rw [whole]
      simp [declarationRule, run]
    · rw [whole] at run'
      cases run'
      have read := body.reads short s c' run
      omega
  | error e c' =>
    rw [after_error run] at onward
    have whole : declarationRule g c = .ok none (c'.report e).synchronize := by
      simp [declarationRule, run]
    have further : c'.Onward (c'.report e).synchronize := by
      obtain ⟨ahead, last⟩ := Cursor.Onward.synchronize (c'.report e)
      exact ⟨ahead, last⟩
    refine ⟨?_, fun short => ?_, fun short x c'' run' => ?_⟩
    · rw [after_ok whole]
      exact onward.trans further
    · rw [body.same short] at run
      rw [whole]
      simp [declarationRule, run]
    · rw [whole] at run'
      cases run'
      -- Either no token is left behind the error, or the one it was found at is skipped.
      have before := onward.length_le
      have behind := further.length_le
      by_cases filled : c'.ahead = []
      · rw [filled, List.length_nil] at behind
        omega
      · have skipped : (c'.report e).synchronize.ahead.length < c'.ahead.length :=
          Cursor.synchronize_lt (c := c'.report e) filled
        omega

end Rules

end Quill.Grammar
