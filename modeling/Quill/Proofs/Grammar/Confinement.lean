import Mathlib.Logic.Relation
import Quill.Proofs.Grammar.Unrolling

set_option autoImplicit false

namespace Quill

open Quill.Parser

namespace Grammar

def above (g : Grammar) : Grammar where
  size := g.size + 1
  expression := g.assignment
  statement := g.statementRule
  declaration := g.declarationRule

def unrolled (g : Grammar) : Nat → Grammar
  | 0 => g
  | n + 1 => (g.unrolled n).above

theorem upTo_succ (n : Nat) : upTo (n + 1) = (upTo n).above := by
  simp [upTo, above, size_upTo]

theorem Agree.above {n : Nat} {g g' : Grammar} (agree : Agree n g g') :
    Agree (n + 1) g.above g'.above where
  size := Nat.succ_le_succ agree.size
  size' := Nat.succ_le_succ agree.size'
  expression := assignment_agrees agree
  statement := statementRule_agrees agree
  declaration := declarationRule_agrees agree

theorem empty_agree (g : Grammar) : Agree 1 empty g.above := by
  -- At the end of input every rule fails before it leads back to the grammar, whichever that is.
  have ended {ahead : List Token} (short : ahead.length < 1) : ahead = [] :=
    List.length_eq_zero_iff.mp (by omega)
  refine ⟨by simp, by simp, fun c => ?_, fun c => ?_, fun c => ?_⟩
  all_goals rcases c with ⟨ahead, last, reported, nextId⟩
  · refine ⟨.refl _, fun short => ?_, fun _ x c' absurd => by cases absurd⟩
    obtain rfl := ended short
    rfl
  · refine ⟨.refl _, fun short => ?_, fun _ x c' absurd => by cases absurd⟩
    obtain rfl := ended short
    rfl
  · refine ⟨⟨List.suffix_rfl, rfl⟩, fun short => ?_, fun short x c' run => ?_⟩
    · obtain rfl := ended short
      rfl
    · obtain rfl := ended short
      cases run
      exact Nat.le_refl _

theorem upTo_agree_unrolled (g : Grammar) {n m : Nat} (deeper : n < m) :
    Agree (n + 1) (upTo n) (g.unrolled m) := by
  -- Each layer takes a token before it turns to the next one, so none is left for what lies below.
  induction n generalizing m with
  | zero =>
    obtain ⟨m, rfl⟩ := Nat.exists_eq_add_of_le' deeper
    exact empty_agree (g.unrolled m)
  | succ n ih =>
    obtain ⟨m, rfl⟩ := Nat.exists_eq_add_of_le' (Nat.le_trans (Nat.le_add_left 1 _) deeper)
    rw [upTo_succ]
    exact (ih (by omega)).above

theorem Agree.refl {n : Nat} {g g' : Grammar} (agree : Agree n g g') : Agree n g g where
  size := agree.size
  size' := agree.size
  expression c := ⟨(agree.expression c).onward, fun _ => rfl, (agree.expression c).reads⟩
  statement c := ⟨(agree.statement c).onward, fun _ => rfl, (agree.statement c).reads⟩
  declaration c := ⟨(agree.declaration c).onward, fun _ => rfl, (agree.declaration c).reads⟩

theorem upTo_agree (n : Nat) : Agree (n + 1) (upTo n) (upTo n) :=
  (upTo_agree_unrolled empty (Nat.lt_succ_self n)).refl

def Full (g : Grammar) : Prop :=
  Agree (g.size + 1) g g

theorem full_upTo (n : Nat) : (upTo n).Full := by
  unfold Full
  rw [size_upTo]
  exact upTo_agree n

def program (g : Grammar) (rounds : Nat) : Parser (List Stmt) :=
  declarationsUntil atEnd g.declaration rounds []

def loneExpression (g : Grammar) : Parser Expr := do
  let e ← g.expression
  if ← atEnd then pure e else fail .expectedEnd

inductive Loop (g : Grammar) : {σ β : Type} → Nat → (σ → Parser (Turn σ β)) →
    (Nat → σ → Parser β) → Prop where
  | program : Loop g g.size (declarationRound atEnd g.declaration)
      (declarationsUntil atEnd g.declaration)
  | block : Loop g g.size (declarationRound atBlockEnd g.declaration)
      (declarationsUntil atBlockEnd g.declaration)
  | classBody : Loop g g.size (methodRound g) (methods g)
  | parameters : Loop g g.size (itemRound .tooManyParameters (expectName .parameter))
      (items .tooManyParameters (expectName .parameter))
  | arguments : Loop g g.size (itemRound .tooManyArguments g.expression)
      (items .tooManyArguments g.expression)
  | operators {looser tighter : List Level} {level : Level}
      (place : levels = looser ++ level :: tighter) :
      Loop g (g.size + 1) (level.round (tighter.foldr (Level.chain g) (unary g g.rounds)))
        (level.rest (tighter.foldr (Level.chain g) (unary g g.rounds)))
  | prefixes : Loop g (g.size + 1) (prefixRound g) fun n operators =>
      prefixed operators <$> unary g n
  | calls : Loop g (g.size + 1) (suffixRound g) (suffixes g)

section Loops

variable {g : Grammar} {σ β : Type} {limit : Nat} {round : σ → Parser (Turn σ β)}
  {bounded : Nat → σ → Parser β}

theorem Loop.unrolls (loop : Loop g limit round bounded) : Unrolls round bounded := by
  cases loop with
  | program => exact declarationsUntil_unrolls _ _
  | block => exact declarationsUntil_unrolls _ _
  | classBody => exact methods_unrolls g
  | parameters => exact items_unrolls _ _
  | arguments => exact items_unrolls _ _
  | operators => exact rest_unrolls _ _
  | prefixes => exact unary_unrolls g
  | calls => exact suffixes_unrolls g

theorem Loop.agrees (loop : Loop g limit round bounded) (agree : g.Full) :
    ∃ k, ∀ a, Agrees (limit + 1) (Turn.least k) (round a) (round a) := by
  cases loop with
  | program => exact ⟨0, declarationRound_agrees atEnd_look agree⟩
  | block => exact ⟨0, declarationRound_agrees atBlockEnd_look agree⟩
  | classBody => exact ⟨0, methodRound_agrees agree⟩
  | parameters => exact ⟨0, itemRound_agrees _ (.expect .identifier _)⟩
  | arguments => exact ⟨0, itemRound_agrees _ agree.expression⟩
  | operators => exact ⟨0, Level.round_agrees _ (chains_agrees agree _)⟩
  | prefixes => exact ⟨1, prefixRound_agrees agree⟩
  | calls => exact ⟨0, suffixRound_agrees agree⟩

theorem Loop.limit_lt_rounds (loop : Loop g limit round bounded) : limit < g.rounds := by
  unfold rounds
  cases loop <;> omega

theorem Loop.onward (loop : Loop g limit round bounded) (agree : g.Full)
    (n : Nat) (a : σ) (c : Cursor) : c.Onward ((bounded n a).after c) := by
  obtain ⟨k, each⟩ := loop.agrees agree
  refine loop.unrolls.onward each (fun a c => ?_) n a c
  cases loop with
  | prefixes => exact ((call_agrees agree).map (J := fun _ => 1) (prefixed a) c).onward
  | _ => exact .refl c

end Loops

inductive Rule (g : Grammar) : {α : Type} → Parser α → Prop where
  -- Looking at the next token, reading it, and what does neither.
  | remaining : Rule g remaining
  | atEnd : Rule g atEnd
  | atBlockEnd : Rule g atBlockEnd
  | peek : Rule g peek?
  | check (s : Symbol) : Rule g (check s)
  | skip : Rule g skip
  | acceptAny (symbols : List Symbol) : Rule g (acceptAny? symbols)
  | expect (s : Symbol) (fault : SyntaxFault) : Rule g (expect s fault)
  | freshId : Rule g freshId
  | reportAt (t : Token) (fault : SyntaxFault) : Rule g (reportAt t fault)
  | reportHere (fault : SyntaxFault) : Rule g (reportHere fault)
  | fail {α : Type} (fault : SyntaxFault) : Rule g (fail fault : Parser α)
  | synchronize : Rule g fun c => .ok () c.synchronize
  -- Loops, and every single round of them.
  | round {σ β : Type} {limit : Nat} {round : σ → Parser (Turn σ β)} {bounded : Nat → σ → Parser β}
      (loop : Loop g limit round bounded) (a : σ) : Rule g (round a)
  | loop {σ β : Type} {limit : Nat} {round : σ → Parser (Turn σ β)} {bounded : Nat → σ → Parser β}
      (loop : Loop g limit round bounded) (n : Nat) (a : σ) : Rule g (bounded n a)
  -- Expressions.
  | parameters : Rule g (g.itemsBeforeParen .tooManyParameters (expectName .parameter))
  | arguments : Rule g (g.itemsBeforeParen .tooManyArguments g.expression)
  | block : Rule g g.block
  | functionRest (name : Option Token) (routine : Routine) : Rule g (g.functionRest name routine)
  | superAccess (keyword : Token) : Rule g (superAccess keyword)
  | anonymousFunction : Rule g g.anonymousFunction
  | groupingRest : Rule g g.groupingRest
  | primary : Rule g g.primary
  | callRest (callee : Expr) : Rule g (g.callRest callee)
  | call : Rule g g.call
  | chain {looser tighter : List Level} (place : levels = looser ++ tighter) :
      Rule g (tighter.foldr (Level.chain g) (unary g g.rounds))
  | assignTo (target : Expr) (equals : Token) (value : Expr) : Rule g (assignTo target equals value)
  | assignment : Rule g g.assignment
  -- Statements.
  | expressionStatement : Rule g g.expressionStatement
  | printStatement : Rule g g.printStatement
  | varDeclaration : Rule g g.varDeclaration
  | optionalBefore (s : Symbol) : Rule g (g.optionalBefore s)
  | forInitializer : Rule g g.forInitializer
  | forStatement : Rule g g.forStatement
  | conditionAfter (keyword : Symbol) : Rule g (g.conditionAfter keyword)
  | ifStatement : Rule g g.ifStatement
  | whileStatement : Rule g g.whileStatement
  | breakStatement (keyword : Token) : Rule g (breakStatement keyword)
  | returnStatement (keyword : Token) : Rule g (g.returnStatement keyword)
  | statementRule : Rule g g.statementRule
  -- Declarations.
  | namedFunction (routine : Routine) : Rule g (g.namedFunction routine)
  | superclassClause : Rule g superclassClause
  | classDeclaration : Rule g g.classDeclaration
  | declarationBody : Rule g g.declarationBody
  | declarationRule : Rule g g.declarationRule
  -- What the grammar leads back to, and what reading begins with.
  | expression : Rule g g.expression
  | statement : Rule g g.statement
  | declaration : Rule g g.declaration
  | program : Rule g programRule
  | loneExpression : Rule g loneExpressionRule

theorem programRule_onward (c : Cursor) : c.Onward (programRule.after c) :=
  Loop.program.onward (full_upTo c.ahead.length) c.ahead.length [] c

theorem loneExpression_agrees {n : Nat} {g g' : Grammar} (agree : Agree n g g') :
    Agrees n (fun _ => 0) (loneExpression g) (loneExpression g') := by
  apply agree.expression.bind
  intro e c
  obtain ⟨b, run, -⟩ := atEnd_look c
  apply AgreesFrom.look run
  cases b with
  | true => exact .pure rfl
  | false => exact Agrees.fail _ c

theorem loneExpressionRule_onward (c : Cursor) : c.Onward (loneExpressionRule.after c) :=
  (loneExpression_agrees (upTo_agree c.ahead.length) c).onward

theorem Rule.onward {n : Nat} {α : Type} {p : Parser α} (rule : Rule (upTo n) p) (c : Cursor) :
    c.Onward (p.after c) := by
  have agree := upTo_agree n
  have full := full_upTo n
  -- The first rules look ahead, move or report on their own. The others are made of them, and were
  -- shown to go on when their depth was shown not to matter.
  cases rule with
  | remaining => exact .refl c
  | atEnd => exact .refl c
  | atBlockEnd =>
    obtain ⟨b, run, -⟩ := atBlockEnd_look c
    rw [after_ok run]
    exact .refl c
  | peek =>
    rw [after_ok (peek?_look c)]
    exact .refl c
  | check s =>
    obtain ⟨b, run⟩ := check_look s c
    rw [after_ok run]
    exact .refl c
  | skip => exact ⟨List.tail_suffix _, rfl⟩
  | acceptAny symbols => exact (Agrees.accepts (n := 0) symbols c).onward
  | expect s fault => exact (Agrees.expect (n := 0) s fault c).onward
  | freshId => exact (Agrees.freshId (n := 0) c).onward
  | reportAt t fault => exact (Agrees.reportAt (n := 0) t fault c).onward
  | reportHere fault => exact (Agrees.reportHere (n := 0) fault c).onward
  | fail fault => exact .refl c
  | synchronize => exact .synchronize c
  | round loop a =>
    obtain ⟨k, each⟩ := loop.agrees full
    exact (each a c).onward
  | loop loop n a => exact loop.onward full n a c
  | parameters => exact (itemsBeforeParen_agrees agree _ (.expect .identifier _) c).onward
  | arguments => exact (itemsBeforeParen_agrees agree _ agree.expression c).onward
  | block => exact (block_agrees agree c).onward
  | functionRest name routine => exact (functionRest_agrees agree name routine c).onward
  | superAccess keyword => exact (superAccess_agrees (n := 0) keyword c).onward
  | anonymousFunction => exact (anonymousFunction_agrees agree c).onward
  | groupingRest => exact (groupingRest_agrees agree c).onward
  | primary => exact (primary_agrees agree c).onward
  | callRest callee => exact (callRest_agrees agree callee c).onward
  | call => exact (call_agrees agree c).onward
  | chain => exact (chains_agrees agree _ c).onward
  | assignTo target equals value =>
    exact (assignTo_agrees (n := 0) target equals value c).onward
  | assignment => exact (assignment_agrees agree c).onward
  | expressionStatement => exact (expressionStatement_agrees agree c).onward
  | printStatement => exact (printStatement_agrees agree c).onward
  | varDeclaration => exact (varDeclaration_agrees agree c).onward
  | optionalBefore s => exact (optionalBefore_agrees agree s c).onward
  | forInitializer => exact (forInitializer_agrees agree c).onward
  | forStatement => exact (forStatement_agrees agree c).onward
  | conditionAfter keyword => exact (conditionAfter_agrees agree keyword c).onward
  | ifStatement => exact (ifStatement_agrees agree c).onward
  | whileStatement => exact (whileStatement_agrees agree c).onward
  | breakStatement keyword => exact (breakStatement_agrees (n := 0) keyword c).onward
  | returnStatement keyword => exact (returnStatement_agrees agree keyword c).onward
  | statementRule => exact (statementRule_agrees agree c).onward
  | namedFunction routine => exact (namedFunction_agrees agree routine c).onward
  | superclassClause => exact (superclassClause_agrees (n := 0) c).onward
  | classDeclaration => exact (classDeclaration_agrees agree c).onward
  | declarationBody => exact (declarationBody_agrees agree c).onward
  | declarationRule => exact (declarationRule_agrees agree c).onward
  | expression => exact (agree.expression c).onward
  | statement => exact (agree.statement c).onward
  | declaration => exact (agree.declaration c).onward
  | program => exact programRule_onward c
  | loneExpression => exact loneExpressionRule_onward c

theorem declarationRule_advances {n : Nat} {c : Cursor} (filled : c.ahead ≠ [])
    (short : c.ahead.length ≤ n + 1) : ∃ found c', declarationRule (upTo n) c = .ok found c' ∧
      c.Onward c' ∧ c'.ahead.length < c.ahead.length := by
  have agrees := declarationRule_agrees (upTo_agree n) c
  have some := List.length_pos_iff.mpr filled
  have result : ∃ found c', declarationRule (upTo n) c = .ok found c' := by
    unfold declarationRule
    split
    next s c' _ => exact ⟨_, _, rfl⟩
    next e c' _ => exact ⟨_, _, rfl⟩
  obtain ⟨found, c', run⟩ := result
  have onward := agrees.onward
  rw [after_ok run] at onward
  have read := agrees.reads (by omega) found c' run
  exact ⟨found, c', run, onward, by omega⟩

theorem programRule_comes (c : Cursor) :
    Comes (declarationRound atEnd (upTo c.ahead.length).declaration) [] c (programRule c) := by
  have each := declarationRound_agrees atEnd_look (upTo_agree c.ahead.length)
  -- There are only as many rounds as tokens. If each took one token, no round is left to see the
  -- end, but the loop gives what that round would have given.
  refine (declarationsUntil_unrolls atEnd _).comes (s := 1) (Agrees.advances each)
    (fun found c' ended => ?_) (Nat.lt_succ_self _) (Nat.lt_succ_self _)
  have none : c'.ahead = [] := List.length_eq_zero_iff.mp (by omega)
  apply Comes.leave
  rcases c' with ⟨ahead, last, reported, nextId⟩
  obtain rfl : ahead = [] := none
  rfl

theorem program_eq {c : Cursor} {n : Nat} (g : Grammar) (deeper : c.ahead.length < n) :
    (g.unrolled n).program n c = programRule c := by
  have each := declarationRound_agrees atEnd_look (upTo_agree_unrolled g deeper)
  have bounded : Comes _ [] c ((g.unrolled n).program n c) :=
    (declarationsUntil_unrolls atEnd _).comes (s := 0) (Agrees.advances each) (by omega)
      (Nat.lt_succ_self _) deeper
  exact (bounded.agree each (Nat.lt_succ_self _)).unique (programRule_comes c)

theorem loneExpression_eq {c : Cursor} {n : Nat} (g : Grammar) (deeper : c.ahead.length < n) :
    (g.unrolled n).loneExpression c = loneExpressionRule c :=
  ((loneExpression_agrees (upTo_agree_unrolled g deeper) c).same (Nat.lt_succ_self _)).symm

end Grammar

def firstEnd (tokens : List Token) : Nat :=
  tokens.findIdx fun t => t.is .eof

structure Cursor.StandsAt (c : Cursor) (tokens : List Token) (i : Nat) : Prop where
  le : i ≤ firstEnd tokens
  ahead : c.ahead = (tokens.take (firstEnd tokens)).drop i
  last : tokens[firstEnd tokens]? = some c.last

namespace Cursor.StandsAt

variable {c c' : Cursor} {tokens : List Token} {i : Nat}

theorem lt_length (stands : c.StandsAt tokens i) : firstEnd tokens < tokens.length := by
  have last := stands.last
  simp only [List.getElem?_eq_some_iff] at last
  exact last.1

theorem position (stands : c.StandsAt tokens i) : i + c.ahead.length = firstEnd tokens := by
  have le := stands.le
  have lt := stands.lt_length
  rw [stands.ahead, List.length_drop, List.length_take]
  omega

theorem here (stands : c.StandsAt tokens i) : tokens[i]? = some c.here := by
  have le := stands.le
  have lt := stands.lt_length
  unfold Cursor.here
  rw [stands.ahead, List.headD_eq_head?_getD, List.head?_drop]
  by_cases ended : i = firstEnd tokens
  · rw [ended, stands.last, List.getElem?_take_eq_none (Nat.le_refl _), Option.getD_none]
  · rw [List.getElem?_take_of_lt (by omega), List.getElem?_eq_getElem (by omega)]
    simp

theorem previous (stands : c.StandsAt tokens i) : (tokens[i - 1]?).isSome := by
  have le := stands.le
  have lt := stands.lt_length
  rw [List.getElem?_eq_getElem (by omega), Option.isSome_some]

theorem onward (stands : c.StandsAt tokens i) (onward : c.Onward c') :
    ∃ j, i ≤ j ∧ c'.StandsAt tokens j := by
  have position := stands.position
  have shorter := onward.length_le
  refine ⟨i + (c.ahead.length - c'.ahead.length), by omega, by omega, ?_, ?_⟩
  · rw [← List.drop_drop, ← stands.ahead]
    exact List.suffix_iff_eq_drop.mp onward.ahead
  · rw [onward.last]
    exact stands.last

theorem further (stands : c.StandsAt tokens i) (onward : c.Onward c')
    (read : c'.ahead.length < c.ahead.length) : ∃ j, i < j ∧ c'.StandsAt tokens j := by
  obtain ⟨j, le, there⟩ := stands.onward onward
  have position := stands.position
  have position' := there.position
  exact ⟨j, by omega, there⟩

end Cursor.StandsAt

theorem Cursor.start_standsAt (nextId : RefId) {tokens : List Token} {last : Token}
    (closed : tokens.getLast? = some last) (eof : last.is .eof) :
    (Cursor.start nextId tokens).StandsAt tokens 0 := by
  have lt : firstEnd tokens < tokens.length :=
    List.findIdx_lt_length_of_exists ⟨last, List.mem_of_getLast? closed, eof⟩
  refine ⟨Nat.zero_le _, ?_, ?_⟩
  · simp [Cursor.start, List.takeWhile_eq_take_findIdx_not, firstEnd]
  · simp only [Cursor.start]
    rw [List.find?_eq_getElem?_findIdx]
    change _ = some ((tokens[firstEnd tokens]?).getD _)
    rw [List.getElem?_eq_getElem lt, Option.getD_some]

def Moves (c c' : Cursor) : Prop :=
  ∃ (n : Nat) (α : Type) (p : Parser α), Grammar.Rule (Grammar.upTo n) p ∧ p.after c = c'

theorem Moves.onward {c c' : Cursor} (moves : Moves c c') : c.Onward c' := by
  obtain ⟨n, α, p, rule, rfl⟩ := moves
  exact rule.onward c

theorem Cursor.StandsAt.moves {c c' : Cursor} {tokens : List Token} {i : Nat}
    (stands : c.StandsAt tokens i) (moves : Relation.ReflTransGen Moves c c') :
    ∃ j, i ≤ j ∧ c'.StandsAt tokens j := by
  induction moves with
  | refl => exact ⟨i, Nat.le_refl i, stands⟩
  | tail _ move ih =>
    obtain ⟨j, le, there⟩ := ih
    obtain ⟨k, further, there'⟩ := there.onward move.onward
    exact ⟨k, Nat.le_trans le further, there'⟩

open Grammar in
/-- Parsing a list of tokens ends, and stays within the list. -/
structure Confined (nextId : RefId) (tokens : List Token) : Prop where
  -- Wherever rules have led, the next token and the one before it are in the list, the next one at
  -- or before the first end of input, and no rule leads back.
  places : ∀ c, Relation.ReflTransGen Moves (Cursor.start nextId tokens) c →
    ∃ i, c.StandsAt tokens i ∧ tokens[i]? = some c.here ∧ (tokens[i - 1]?).isSome ∧
      ∀ c', Moves c c' → ∃ j, i ≤ j ∧ c'.StandsAt tokens j
  -- Every round of a loop leaves it or reads a token.
  rounds : ∀ {n limit : Nat} {σ β : Type} {round : σ → Parser (Turn σ β)}
    {bounded : Nat → σ → Parser β}, Loop (upTo n) limit round bounded →
    ∀ {c i}, c.StandsAt tokens i → c.ahead.length ≤ limit →
    ∀ {a a' c'}, round a c = .ok (.again a') c' → ∃ j, i < j ∧ c'.StandsAt tokens j
  -- Every loop comes to its end before its rounds run out.
  loops : ∀ {n limit : Nat} {σ β : Type} {round : σ → Parser (Turn σ β)}
    {bounded : Nat → σ → Parser β}, Loop (upTo n) limit round bounded →
    ∀ {c}, c.ahead.length ≤ limit → ∀ a, Comes round a c (bounded (upTo n).rounds a c)
  -- A declaration that does not stand at the end reads a token, also when it is given up.
  declarations : ∀ {n : Nat} {c : Cursor} {i : Nat}, c.StandsAt tokens i → i < firstEnd tokens →
    c.ahead.length ≤ n + 1 →
    ∃ found c' j, declarationRule (upTo n) c = .ok found c' ∧ i < j ∧ c'.StandsAt tokens j
  -- The loop over the declarations of the program comes to its end.
  program : Comes (declarationRound atEnd (upTo (firstEnd tokens)).declaration) []
    (Cursor.start nextId tokens) (programRule (Cursor.start nextId tokens))
  -- The recursion is no deeper than there are tokens: what lies below more layers of the rules
  -- than that is never reached, and more rounds change nothing.
  parsed : ∀ (g : Grammar) (n : Nat), firstEnd tokens < n →
    parseWith ((g.unrolled n).program n) nextId tokens = parseProgram nextId tokens ∧
    parseWith (g.unrolled n).loneExpression nextId tokens = parseExpression nextId tokens

open Grammar in
theorem parsing_confined (nextId : RefId) (tokens : List Token)
    (closed : ∃ last, tokens.getLast? = some last ∧ last.is .eof) : Confined nextId tokens := by
  obtain ⟨last, closed, eof⟩ := closed
  have start := Cursor.start_standsAt nextId closed eof
  have length : (Cursor.start nextId tokens).ahead.length = firstEnd tokens := by
    simpa using start.position
  refine ⟨fun c reached => ?_, fun loop c i stands short a a' c' run => ?_,
    fun loop c short a => ?_, fun stands filled short => ?_, ?_, fun g n deeper => ?_⟩
  · obtain ⟨i, -, stands⟩ := start.moves reached
    exact ⟨i, stands, stands.here, stands.previous, fun c' moves => stands.onward moves.onward⟩
  · obtain ⟨k, each⟩ := loop.agrees (full_upTo _)
    have onward := (each a c).onward
    rw [after_ok run] at onward
    exact stands.further onward (Agrees.advances each _ _ _ _ (by omega) run)
  · obtain ⟨k, each⟩ := loop.agrees (full_upTo _)
    have enough := loop.limit_lt_rounds
    exact loop.unrolls.comes (s := 0) (Agrees.advances each) (by omega) (by omega) (by omega)
  · have position := stands.position
    obtain ⟨found, c', run, onward, read⟩ :=
      declarationRule_advances (List.length_pos_iff.mp (by omega)) short
    obtain ⟨j, further, there⟩ := stands.further onward read
    exact ⟨found, c', j, run, further, there⟩
  · rw [← length]
    exact programRule_comes _
  · -- The tokens ahead at the start are those before the first end, fewer than there are layers.
    have deep : (Cursor.start nextId tokens).ahead.length < n := by omega
    constructor
    · unfold parseProgram parseWith
      rw [program_eq g deep]
    · unfold parseExpression parseWith
      rw [loneExpression_eq g deep]

def interrupted : List Token :=
  [⟨.symbol .leftBrace, "\x7b", 1⟩, ⟨.symbol .rightParen, ")", 1⟩, ⟨.symbol .printKw, "print", 1⟩,
    ⟨.symbol .eof, "", 1⟩, ⟨.symbol .semicolon, ";", 2⟩, ⟨.symbol .eof, "", 2⟩]

theorem parsing_confined_interrupted : firstEnd interrupted = 3 ∧ Confined 0 interrupted ∧
    ∃ errors, parseProgram 0 interrupted = .error errors ∧ errors.length = 3 :=
  ⟨by decide, parsing_confined 0 interrupted ⟨⟨.symbol .eof, "", 2⟩, rfl, rfl⟩, _, rfl, rfl⟩

end Quill
