import Quill.Proofs.Grammar.Lookahead
import Quill.Proofs.Grammar.Soundness

set_option autoImplicit false

namespace Quill

mutual

def Expr.unnumbered : Expr → Expr
  | .literal value => .literal value
  | .grouping inner => .grouping inner.unnumbered
  | .unary operator operand => .unary operator operand.unnumbered
  | .binary left operator right => .binary left.unnumbered operator right.unnumbered
  | .logical left operator right => .logical left.unnumbered operator right.unnumbered
  | .variable _ name => .variable 0 name
  | .assign _ name value => .assign 0 name value.unnumbered
  | .call callee paren arguments => .call callee.unnumbered paren (unnumberedExprs arguments)
  | .get object name => .get object.unnumbered name
  | .set object name value => .set object.unnumbered name value.unnumbered
  | .this _ keyword => .this 0 keyword
  | .super _ keyword method => .super 0 keyword method
  | .function f => .function f.unnumbered

def unnumberedExprs : List Expr → List Expr
  | [] => []
  | e :: rest => e.unnumbered :: unnumberedExprs rest

def Function.unnumbered : Function → Function
  | ⟨name, params, body⟩ => ⟨name, params, unnumberedStmts body⟩

def unnumberedFunctions : List Function → List Function
  | [] => []
  | f :: rest => f.unnumbered :: unnumberedFunctions rest

def Stmt.unnumbered : Stmt → Stmt
  | .expression e => .expression e.unnumbered
  | .print e => .print e.unnumbered
  | .var name none => .var name none
  | .var name (some e) => .var name (some e.unnumbered)
  | .block body => .block (unnumberedStmts body)
  | .conditional condition thenBranch none =>
    .conditional condition.unnumbered thenBranch.unnumbered none
  | .conditional condition thenBranch (some elseBranch) =>
    .conditional condition.unnumbered thenBranch.unnumbered (some elseBranch.unnumbered)
  | .loop condition body => .loop condition.unnumbered body.unnumbered
  | .breakLoop keyword => .breakLoop keyword
  | .returnFrom keyword none => .returnFrom keyword none
  | .returnFrom keyword (some e) => .returnFrom keyword (some e.unnumbered)
  | .function f => .function f.unnumbered
  | .classDecl name none methods => .classDecl name none (unnumberedFunctions methods)
  | .classDecl name (some superclass) methods =>
    .classDecl name (some superclass.unnumbered) (unnumberedFunctions methods)

def unnumberedStmts : List Stmt → List Stmt
  | [] => []
  | s :: rest => s.unnumbered :: unnumberedStmts rest

end

def Phrase.unnumbered : (p : Phrase) → p.Tree → p.Tree
  | .declarations, body => unnumberedStmts body
  | .declaration _, s => s.unnumbered
  | .varDecl, s => s.unnumbered
  | .superclass, e => e.map Expr.unnumbered
  | .function, f => f.unnumbered
  | .functions, fs => unnumberedFunctions fs
  | .parameters, params => params
  | .names, params => params
  | .block, body => unnumberedStmts body
  | .statement _, s => s.unnumbered
  | .exprStmt, s => s.unnumbered
  | .forStart, s => s.map Stmt.unnumbered
  | .optional, e => e.map Expr.unnumbered
  | .expression, e => e.unnumbered
  | .chain _, e => e.unnumbered
  | .unary, e => e.unnumbered
  | .call, e => e.unnumbered
  | .arguments, es => unnumberedExprs es
  | .expressions, es => unnumberedExprs es
  | .primary, e => e.unnumbered

def Phrase.Same (p : Phrase) (x y : p.Tree) : Prop :=
  p.unnumbered x = p.unnumbered y

def callSymbols : List Symbol :=
  [.leftParen, .dot]

def chainSymbols (tiers : List Tier) : List Symbol :=
  callSymbols ++ tiers.flatMap Tier.symbols

def expressionSymbols : List Symbol :=
  .equal :: chainSymbols Tier.all

/-- Where a list of declarations ends. -/
structure Ends (stop : Parser Bool) (rest : List Token) : Prop where
  here : ∀ last reported lo, stop ⟨rest, last, reported, lo⟩ = .ok true ⟨rest, last, reported, lo⟩
  before : ∀ ts last reported lo, Begins declarationStarts ts →
    stop ⟨ts, last, reported, lo⟩ = .ok false ⟨ts, last, reported, lo⟩
  follow : Clear [.elseKw] rest

open Grammar in
def Completed : (p : Phrase) → List Token → p.Tree → Prop
  | .declarations, ts, body => ∀ n k found stop rest, ts.length ≤ n → ts.length ≤ k →
    Ends stop rest → Parses (declarationsUntil stop (upTo n).declaration k found) ts rest fun ys =>
      ∃ body', ys = found.reverse ++ body' ∧ Phrase.declarations.Same body' body
  | .declaration d, ts, s => ∀ n rest, ts.length ≤ n + 1 → (d = true → Clear [.elseKw] rest) →
    Parses (declarationBody (upTo n)) ts rest ((Phrase.declaration d).Same · s)
  | .varDecl, ts, s => ∃ keyword us, ts = keyword :: us ∧ keyword.is .varKw ∧
    ∀ n rest, us.length ≤ n + 1 → Parses (varDeclaration (upTo n)) us rest (Phrase.varDecl.Same · s)
  | .superclass, ts, parent => ∀ rest, Clear [.less] rest →
    Parses superclassClause ts rest (Phrase.superclass.Same · parent)
  | .function, ts, f => ∀ n rest routine, ts.length ≤ n + 1 →
    Parses (namedFunction (upTo n) routine) ts rest (Phrase.function.Same · f)
  | .functions, ts, fs => ∀ n k found rest, ts.length ≤ n + 1 → ts.length ≤ k →
    Heads .rightBrace rest → Parses (methods (upTo n) k found) ts rest fun ys =>
      ∃ fs', ys = found.reverse ++ fs' ∧ Phrase.functions.Same fs' fs
  | .parameters, ts, params => ∀ (g : Grammar) rest, ts.length ≤ g.rounds → Heads .rightParen rest →
    Parses (g.itemsBeforeParen .tooManyParameters (Parser.expectName .parameter)) ts rest (· = params)
  | .names, ts, params => ∀ tooMany role k found rest, ts.length ≤ k →
    found.length + params.length ≤ maxItems → Clear [.comma] rest →
    Parses (items tooMany (Parser.expectName role) k found) ts rest (· = found.reverse ++ params)
  | .block, ts, body => ∃ opening us, ts = opening :: us ∧ opening.is .leftBrace ∧
    ∀ n rest, us.length ≤ n + 1 → Parses (block (upTo n)) us rest (Phrase.block.Same · body)
  | .statement d, ts, s => ∀ n rest, ts.length ≤ n + 1 → (d = true → Clear [.elseKw] rest) →
    Parses (statementRule (upTo n)) ts rest ((Phrase.statement d).Same · s)
  | .exprStmt, ts, s => ∀ n rest, ts.length ≤ n + 1 →
    Parses (expressionStatement (upTo n)) ts rest (Phrase.exprStmt.Same · s)
  | .forStart, ts, start => ∀ n rest, ts.length ≤ n + 1 →
    Parses (forInitializer (upTo n)) ts rest (Phrase.forStart.Same · start)
  | .optional, ts, value => ∀ n s rest, ts.length ≤ n + 1 → s = .semicolon ∨ s = .rightParen →
    Heads s rest → Parses (optionalBefore (upTo n) s) ts rest (Phrase.optional.Same · value)
  | .expression, ts, e => ∀ n rest, ts.length ≤ n + 1 → Clear expressionSymbols rest →
    Parses (assignment (upTo n)) ts rest (Phrase.expression.Same · e)
  | .chain [], ts, e => ∀ n rest, ts.length ≤ n + 1 → Clear callSymbols rest →
    Parses (chainRule (upTo n) []) ts rest ((Phrase.chain []).Same · e)
  | .chain (tier :: tighter), ts, e => ∀ n us rest Q, (tier :: tighter).Nodup → ts.length ≤ n + 1 →
    Clear (chainSymbols tighter) (us ++ rest) →
    (∀ k e', n + 3 ≤ k + ts.length → e'.unnumbered = e.unnumbered →
      Parses ((level tier).rest (chainRule (upTo n) tighter) k e') us rest Q) →
    Parses (chainRule (upTo n) (tier :: tighter)) (ts ++ us) rest Q
  | .unary, ts, e => ∀ n k rest, ts.length ≤ n + 1 → ts.length ≤ k → Clear callSymbols rest →
    Parses (unary (upTo n) k) ts rest (Phrase.unary.Same · e)
  | .call, ts, e => ∀ n us rest Q, ts.length ≤ n + 1 →
    (∀ k e', n + 3 ≤ k + ts.length → e'.unnumbered = e.unnumbered →
      Parses (suffixes (upTo n) k e') us rest Q) →
    Parses (call (upTo n)) (ts ++ us) rest Q
  | .arguments, ts, es => ∀ n rest, ts.length ≤ n → Heads .rightParen rest →
    Parses ((upTo n).itemsBeforeParen .tooManyArguments (upTo n).expression) ts rest
      (Phrase.arguments.Same · es)
  | .expressions, ts, es => ∀ tooMany n k found rest, ts.length ≤ n → ts.length ≤ k →
    found.length + es.length ≤ maxItems → Clear (.comma :: expressionSymbols) rest →
    Parses (items tooMany (upTo n).expression k found) ts rest fun ys =>
      ∃ es', ys = found.reverse ++ es' ∧ Phrase.expressions.Same es' es
  | .primary, ts, e => ∀ n rest, ts.length ≤ n + 1 →
    Parses (primary (upTo n)) ts rest (Phrase.primary.Same · e)

namespace Completed

open Grammar Quill.Parser

variable {ts us vs rest : List Token} {n : Nat}

theorem recursive_expression {e : Expr} (h : Completed .expression ts e) (nonempty : ts ≠ [])
    (hn : ts.length ≤ n) (clear : Clear expressionSymbols rest) :
    Parses (upTo n).expression ts rest (Phrase.expression.Same · e) := by
  -- The rule that a grammar leads back to is for inputs that are one token shorter.
  cases n with
  | zero => exact absurd (List.length_eq_zero_iff.mp (Nat.le_zero.mp hn)) nonempty
  | succ n => exact h n rest hn clear

theorem recursive_statement {d : Bool} {s : Stmt} (h : Completed (.statement d) ts s)
    (nonempty : ts ≠ []) (hn : ts.length ≤ n) (follow : d = true → Clear [.elseKw] rest) :
    Parses (upTo n).statement ts rest ((Phrase.statement d).Same · s) := by
  cases n with
  | zero => exact absurd (List.length_eq_zero_iff.mp (Nat.le_zero.mp hn)) nonempty
  | succ n => exact h n rest hn follow

theorem recursive_declaration {d : Bool} {s : Stmt} (h : Completed (.declaration d) ts s)
    (nonempty : ts ≠ []) (hn : ts.length ≤ n) (follow : d = true → Clear [.elseKw] rest) :
    Parses (upTo n).declaration ts rest fun found =>
      ∃ s', found = some s' ∧ (Phrase.declaration d).Same s' s := by
  cases n with
  | zero => exact absurd (List.length_eq_zero_iff.mp (Nat.le_zero.mp hn)) nonempty
  | succ n =>
    intro last reported lo
    obtain ⟨s', hi, run, same⟩ := h n rest hn follow last reported lo
    refine ⟨some s', hi, ?_, s', rfl, same⟩
    change declarationRule (upTo n) _ = _
    unfold declarationRule
    rw [run]

section Lists

variable {α : Type} {tooMany : SyntaxFault} {item : Parser α} {P : α → Prop} {Q : List α → Prop}

theorem items_succ {k : Nat} {found : List α} (room : found.length < maxItems)
    (h : Parses (item >>= fun x => accept? .comma >>= fun
      | some _ => items tooMany item k (x :: found)
      | none => pure (x :: found).reverse) ts rest Q) :
    Parses (items tooMany item (k + 1) found) ts rest Q := by
  unfold items
  have bounded : ¬maxItems ≤ found.length := by omega
  simp only [bounded]
  exact h

theorem items_last {k : Nat} {found : List α} (room : found.length < maxItems)
    (hitem : Parses item ts rest P) (clear : Clear [.comma] rest)
    (hQ : ∀ x, P x → Q (found.reverse ++ [x])) :
    Parses (items tooMany item (k + 1) found) ts rest Q := by
  refine items_succ room ?_
  rw [← List.append_nil ts]
  refine Parses.bind hitem fun x hx => Parses.passed clear (Parses.pure ?_)
  rw [List.reverse_cons]
  exact hQ x hx

theorem items_more {k : Nat} {found : List α} {comma : Token} (room : found.length < maxItems)
    (hitem : Parses item ts (comma :: us ++ rest) P) (hc : comma.is .comma)
    (later : ∀ x, P x → Parses (items tooMany item k (x :: found)) us rest Q) :
    Parses (items tooMany item (k + 1) found) (ts ++ comma :: us) rest Q := by
  refine items_succ room (Parses.bind hitem fun x hx => Parses.accepted ?_ (later x hx))
  simpa using hc

theorem itemsBeforeParen_nil (g : Grammar) (close : Heads .rightParen rest) (hQ : Q []) :
    Parses (g.itemsBeforeParen tooMany item) [] rest Q := by
  obtain ⟨closing, us, rfl, hc⟩ := close
  exact Parses.met hc (Parses.pure hQ)

theorem itemsBeforeParen_items {symbols : List Symbol} (g : Grammar) (begins : Begins symbols ts)
    (apart : .rightParen ∉ symbols) (h : Parses (items tooMany item g.rounds []) ts rest Q) :
    Parses (g.itemsBeforeParen tooMany item) ts rest Q := by
  refine Parses.unmet (begins.clear ?_ rest) h
  intro s mem paren
  rw [List.mem_singleton] at paren
  exact apart (paren ▸ mem)

end Lists

theorem lastName {name : Token} (hn : name.is .identifier) : Completed .names [name] [name] := by
  intro tooMany role k found rest hk room clear
  cases k with
  | zero => simp at hk
  | succ k =>
    simp only [List.length_singleton] at room
    refine items_last (by omega) (Parses.expected hn) clear ?_
    rintro x rfl
    rfl

theorem moreNames {name comma : Token} {params : List Token} (hn : name.is .identifier)
    (hc : comma.is .comma) (h : Completed .names ts params) :
    Completed .names (name :: comma :: ts) (name :: params) := by
  intro tooMany role k found rest hk room clear
  cases k with
  | zero => simp at hk
  | succ k =>
    simp only [List.length_cons] at room hk
    change Parses _ ([name] ++ comma :: ts) rest _
    refine items_more (by omega) (Parses.expected hn) hc ?_
    rintro x rfl
    refine (h tooMany role k (x :: found) rest (by omega) ?_ clear).weaken ?_
    · simp only [List.length_cons]
      omega
    · rintro ys rfl
      simp

theorem noParameters : Completed .parameters [] [] := fun g _ _ close =>
  itemsBeforeParen_nil g close rfl

theorem parameters {params : List Token} (begun : Phrase.names.Begun ts)
    (h : Completed .names ts params) (bound : params.length ≤ mostItems) :
    Completed .parameters ts params := by
  intro g rest hn close
  refine itemsBeforeParen_items g begun (by decide) ?_
  refine h _ _ g.rounds [] rest hn ?_ (close.clear (by decide))
  rw [List.length_nil, Nat.zero_add]
  exact bound

theorem lastExpression {e : Expr} (begun : Phrase.expression.Begun ts)
    (h : Completed .expression ts e) : Completed .expressions ts [e] := by
  intro tooMany n k found rest hn hk room clear
  have nonempty := List.length_pos_iff.mpr begun.1.ne_nil
  cases k with
  | zero => omega
  | succ k =>
    simp only [List.length_singleton] at room
    refine items_last (by omega) (recursive_expression h begun.1.ne_nil hn (clear.sub ?_))
      (clear.sub (by decide)) ?_
    · exact List.subset_cons_self _ _
    · intro e' same
      exact ⟨[e'], rfl, by simpa [Phrase.Same, Phrase.unnumbered, unnumberedExprs] using same⟩

theorem moreExpressions {comma : Token} {e : Expr} {es : List Expr}
    (begun : Phrase.expression.Begun ts) (first : Completed .expression ts e)
    (hc : comma.is .comma) (others : Completed .expressions us es) :
    Completed .expressions (ts ++ comma :: us) (e :: es) := by
  intro tooMany n k found rest hn hk room clear
  simp only [List.length_append, List.length_cons] at hn hk room
  cases k with
  | zero => omega
  | succ k =>
    refine items_more (by omega) (recursive_expression first begun.1.ne_nil (by omega)
      (clear_cons _ hc (by decide))) hc ?_
    intro e' same
    refine (others tooMany n k (e' :: found) rest (by omega) (by omega) ?_ clear).weaken ?_
    · simp only [List.length_cons]
      omega
    · rintro _ ⟨es', rfl, same'⟩
      refine ⟨e' :: es', by simp, ?_⟩
      simp only [Phrase.Same, Phrase.unnumbered, unnumberedExprs] at same same' ⊢
      rw [same, same']

theorem noArguments : Completed .arguments [] [] := fun n _ _ close =>
  itemsBeforeParen_nil (upTo n) close rfl

theorem arguments {es : List Expr} (begun : Phrase.expressions.Begun ts)
    (h : Completed .expressions ts es) (bound : es.length ≤ mostItems) :
    Completed .arguments ts es := by
  intro n rest hn close
  refine itemsBeforeParen_items (upTo n) begun (by decide) ?_
  refine (h _ n _ [] rest hn ?_ ?_ (close.clear (by decide))).weaken ?_
  · simp only [rounds, size_upTo]
    omega
  · rw [List.length_nil, Nat.zero_add]
    exact bound
  · rintro _ ⟨es', rfl, same⟩
    exact same

theorem primaryFrom_parses {g : Grammar} {t : Token} {Q : Expr → Prop}
    (h : Parses (primaryFrom g t) (t :: ts) rest Q) : Parses (primary g) (t :: ts) rest Q := h

theorem literal {t : Token} {value : Literal}
    (rule : ∀ g, primaryFrom g t = skip *> pure (.literal value)) :
    Completed .primary [t] (.literal value) := by
  intro n rest _
  refine primaryFrom_parses ?_
  rw [rule]
  exact Parses.skip (f := fun _ => pure _) (Parses.pure rfl)

theorem fresh {t : Token} (node : RefId → Expr) (id : RefId)
    (rule : ∀ g, primaryFrom g t = skip *> node <$> freshId)
    (same : ∀ id', (node id').unnumbered = (node id).unnumbered) :
    Completed .primary [t] (node id) := by
  intro n rest _
  refine primaryFrom_parses ?_
  rw [rule]
  exact fun last reported lo => ⟨node lo, lo + 1, rfl, same lo⟩

theorem primaryFrom_eq {t : Token} {s : Symbol} (ht : t.is s) (g : Grammar) :
    primaryFrom g t = primaryFrom g ⟨.symbol s, t.lexeme, t.line⟩ := by
  rcases t with ⟨kind, lexeme, line⟩
  rw [Token.is_iff] at ht
  subst ht
  rfl

theorem this {t : Token} (id : RefId) (ht : t.is .thisKw) :
    Completed .primary [t] (.this id t) := by
  have kind := (Token.is_iff t _).mp ht
  exact fresh (.this · t) id (fun g => by simp only [primaryFrom, kind]) fun _ => rfl

theorem reference {t : Token} (id : RefId) (ht : t.is .identifier) :
    Completed .primary [t] (.variable id t) := by
  have kind := (Token.is_iff t _).mp ht
  exact fresh (.variable · t) id (fun g => by simp only [primaryFrom, kind]) fun _ => rfl

theorem grouping {opening closing : Token} {e : Expr} (ho : opening.is .leftParen)
    (begun : Phrase.expression.Begun ts) (h : Completed .expression ts e)
    (hc : closing.is .rightParen) :
    Completed .primary (opening :: (ts ++ [closing])) (.grouping e) := by
  intro n rest hn
  simp only [List.length_cons, List.length_append, List.length_nil] at hn
  refine primaryFrom_parses ?_
  rw [primaryFrom_eq ho]
  refine Parses.skip (f := fun _ => groupingRest (upTo n)) ?_
  refine Parses.bind (recursive_expression h begun.1.ne_nil (by omega)
    (clear_cons _ hc (by decide))) fun e' same => Parses.expect hc (Parses.pure ?_)
  simp only [Phrase.Same, Phrase.unnumbered, Expr.unnumbered] at same ⊢
  rw [same]

theorem super {keyword dot method : Token} {id : RefId} (hk : keyword.is .superKw)
    (hd : dot.is .dot) (hm : method.is .identifier) :
    Completed .primary [keyword, dot, method] (.super id keyword method) := by
  intro n rest _
  refine primaryFrom_parses ?_
  have rule : primaryFrom (upTo n) keyword = skip *> superAccess keyword := by
    rcases keyword with ⟨kind, lexeme, line⟩
    rw [Token.is_iff] at hk
    subst hk
    rfl
  rw [rule]
  refine Parses.skip (f := fun _ => superAccess keyword) (Parses.expect hd (Parses.expect hm ?_))
  exact fun last reported lo => ⟨_, lo + 1, rfl, rfl⟩

theorem functionRest_parses {closing : Token} {params : List Token} {body : List Stmt}
    (name : Option Token) (routine : Routine) (hps : Completed .parameters ts params)
    (hc : closing.is .rightParen) (hb : Completed .block us body)
    (hn : (ts ++ closing :: us).length ≤ n + 1) :
    Parses (functionRest (upTo n) name routine) (ts ++ closing :: us) rest fun f =>
      f.unnumbered = Function.unnumbered ⟨name, params, body⟩ := by
  obtain ⟨opening, us, rfl, ho, hb⟩ := hb
  simp only [List.length_append, List.length_cons] at hn
  refine Parses.bind (hps (upTo n) _ ?_ ⟨closing, _, rfl, hc⟩) ?_
  · simp only [rounds, size_upTo]
    omega
  rintro _ rfl
  refine Parses.expect hc (Parses.expect ho ((hb n rest (by omega)).bind_pure ?_))
  intro body' same
  simp only [Phrase.Same, Phrase.unnumbered, Function.unnumbered] at same ⊢
  rw [same]

theorem anonymous {keyword opening closing : Token} {params : List Token} {body : List Stmt}
    (hk : keyword.is .funKw) (ho : opening.is .leftParen) (hps : Completed .parameters ts params)
    (hc : closing.is .rightParen) (hb : Completed .block us body) :
    Completed .primary (keyword :: opening :: (ts ++ closing :: us))
      (.function ⟨none, params, body⟩) := by
  intro n rest hn
  simp only [List.length_cons] at hn
  refine primaryFrom_parses ?_
  rw [primaryFrom_eq hk]
  refine Parses.skip (f := fun _ => anonymousFunction (upTo n)) (Parses.expect ho ?_)
  refine (functionRest_parses none .anonymous hps hc hb (by omega)).bind_pure ?_
  intro f same
  simp only [Phrase.Same, Phrase.unnumbered, Expr.unnumbered] at same ⊢
  rw [same]

theorem callee {e : Expr} (begun : Phrase.primary.Begun ts) (h : Completed .primary ts e) :
    Completed .call ts e := by
  intro n us rest Q hn later
  have nonempty := List.length_pos_iff.mpr begun.1.ne_nil
  refine Parses.bind (h n _ hn) fun e' same => later _ e' ?_ same
  simp only [rounds, size_upTo]
  omega

theorem call {opening closing : Token} {callee : Expr} {arguments : List Expr}
    (h : Completed .call ts callee) (ho : opening.is .leftParen)
    (hargs : Completed .arguments us arguments) (hc : closing.is .rightParen) :
    Completed .call (ts ++ opening :: (us ++ [closing])) (.call callee closing arguments) := by
  intro n vs rest Q hn later
  simp only [List.length_append, List.length_cons, List.length_nil] at hn later
  rw [List.append_assoc]
  refine h n _ rest Q (by omega) fun k callee' hk same => ?_
  cases k with
  | zero => omega
  | succ k =>
    refine Parses.peeked ho (Parses.skip ?_)
    have last (arguments' : List Expr) (same' : Phrase.arguments.Same arguments' arguments) :
        Parses (suffixes (upTo n) k (.call callee' closing arguments')) vs rest Q := by
      refine later k _ (by omega) ?_
      simp only [Phrase.Same, Phrase.unnumbered] at same'
      simp only [Expr.unnumbered, same, same']
    change Parses _ ((us ++ [closing]) ++ vs) rest Q
    refine Parses.bind (P := fun e => ∃ arguments', e = .call callee' closing arguments' ∧
      Phrase.arguments.Same arguments' arguments) ?_ ?_
    · refine Parses.bind (hargs n _ (by omega) ⟨closing, _, rfl, hc⟩) fun arguments' same' =>
        Parses.expect hc (Parses.pure ⟨arguments', rfl, same'⟩)
    · rintro _ ⟨arguments', rfl, same'⟩
      exact last arguments' same'

theorem get {dot name : Token} {object : Expr} (h : Completed .call ts object) (hd : dot.is .dot)
    (hname : name.is .identifier) : Completed .call (ts ++ [dot, name]) (.get object name) := by
  intro n vs rest Q hn later
  simp only [List.length_append, List.length_cons, List.length_nil] at hn later
  rw [List.append_assoc]
  refine h n _ rest Q (by omega) fun k object' hk same => ?_
  cases k with
  | zero => omega
  | succ k =>
    refine Parses.peeked hd (Parses.skip (Parses.expect hname (later k _ (by omega) ?_)))
    simp only [Expr.unnumbered, same]

theorem call_parses {e : Expr} (h : Completed .call ts e) (hn : ts.length ≤ n + 1)
    (clear : Clear callSymbols rest) :
    Parses (Grammar.call (upTo n)) ts rest fun e' => e'.unnumbered = e.unnumbered := by
  rw [← List.append_nil ts]
  refine h n [] rest _ hn fun k e' _ same => ?_
  cases k with
  | zero => exact Parses.pure same
  | succ k =>
    refine Parses.unpeeked clear fun next other => ?_
    split
    next => exact absurd rfl (other .leftParen (by decide))
    next => exact absurd rfl (other .dot (by decide))
    next => exact Parses.pure same

theorem unprefixed {e : Expr} (begun : Phrase.call.Begun ts) (h : Completed .call ts e) :
    Completed .unary ts e := by
  intro n k rest hn hk clear
  cases k with
  | zero => exact call_parses h hn clear
  | succ k => exact Parses.passed (begun.1.clear (by decide) rest) (call_parses h hn clear)

theorem prefixed {operator : Token} {e : Expr} (hop : [Symbol.bang, .minus].any operator.is)
    (h : Completed .unary ts e) : Completed .unary (operator :: ts) (.unary operator e) := by
  intro n k rest hn hk clear
  simp only [List.length_cons] at hn hk
  cases k with
  | zero => omega
  | succ k =>
    refine Parses.accepted hop ((h n k rest (by omega) (by omega) clear).bind_pure ?_)
    intro e' same
    simp only [Phrase.Same, Phrase.unnumbered, Expr.unnumbered] at same ⊢
    rw [same]

theorem tightest {e : Expr} (h : Completed .unary ts e) : Completed (.chain []) ts e := by
  intro n rest hn clear
  refine h n _ rest hn ?_ clear
  simp only [rounds, size_upTo]
  omega

theorem unnumbered_node (tier : Tier) (left : Expr) (operator : Token) (right : Expr) :
    (tier.node left operator right).unnumbered =
      tier.node left.unnumbered operator right.unnumbered := by
  cases tier <;> rfl

theorem chain_parses {tiers : List Tier} {e : Expr} (h : Completed (.chain tiers) ts e)
    (nodup : tiers.Nodup) (hn : ts.length ≤ n + 1) (clear : Clear (chainSymbols tiers) rest) :
    Parses (chainRule (upTo n) tiers) ts rest fun e' => e'.unnumbered = e.unnumbered := by
  cases tiers with
  | nil => exact h n rest hn (clear.sub (by simp [chainSymbols]))
  | cons tier tighter =>
    rw [← List.append_nil ts]
    refine h n [] rest _ nodup hn (clear.sub ?_) fun k e' _ same => ?_
    · intro s mem
      simp only [chainSymbols, List.flatMap_cons, List.mem_append] at mem ⊢
      exact mem.imp_right .inr
    · cases k with
      | zero => exact Parses.pure same
      | succ k =>
        refine Parses.passed (clear.sub ?_) (Parses.pure same)
        intro s mem
        simp only [chainSymbols, List.flatMap_cons, List.mem_append]
        exact .inr (.inl mem)

theorem operand {tier : Tier} {tighter : List Tier} {e : Expr}
    (begun : (Phrase.chain tighter).Begun ts) (h : Completed (.chain tighter) ts e) :
    Completed (.chain (tier :: tighter)) ts e := by
  intro n us rest Q nodup hn clear later
  have nonempty := List.length_pos_iff.mpr begun.1.ne_nil
  refine Parses.bind (chain_parses h (List.nodup_cons.mp nodup).2 hn clear) fun e' same =>
    later _ e' ?_ same
  simp only [rounds, size_upTo]
  omega

theorem operator_apart {tier : Tier} {tighter : List Tier} {s : Symbol}
    (nodup : (tier :: tighter).Nodup) (mem : s ∈ tier.symbols) : s ∉ chainSymbols tighter := by
  intro mem'
  simp only [chainSymbols, List.mem_append, List.mem_flatMap] at mem'
  rcases mem' with suffix | ⟨other, mem', hit⟩
  -- All tiers are told apart by their symbols, which leaves a table to go through.
  · revert suffix
    cases tier <;> revert s <;> decide
  · have different : tier ≠ other := fun same => (List.nodup_cons.mp nodup).1 (same ▸ mem')
    cases tier <;> cases other <;> first
      | exact different rfl
      | (revert s; decide)

theorem link {tier : Tier} {tighter : List Tier} {operator : Token} {left right : Expr}
    (hleft : Completed (.chain (tier :: tighter)) ts left)
    (hop : tier.symbols.any operator.is) (begun : (Phrase.chain tighter).Begun us)
    (hright : Completed (.chain tighter) us right) :
    Completed (.chain (tier :: tighter)) (ts ++ operator :: us) (tier.node left operator right) := by
  intro n vs rest Q nodup hn clear later
  simp only [List.length_append, List.length_cons] at hn later
  have nonempty := List.length_pos_iff.mpr begun.1.ne_nil
  obtain ⟨s, mem, hit⟩ := List.any_eq_true.mp hop
  rw [List.append_assoc]
  -- The loop has read the left operand already; one round more reads the operator and the right one.
  refine hleft n _ rest Q nodup (by omega) (clear_cons _ hit (operator_apart nodup mem)) ?_
  intro k left' hk same
  cases k with
  | zero => omega
  | succ k =>
    refine Parses.accepted hop (Parses.bind
      (chain_parses hright (List.nodup_cons.mp nodup).2 (by omega) clear) fun right' same' => ?_)
    refine later k _ (by omega) ?_
    change (tier.node left' operator right').unnumbered = _
    rw [unnumbered_node, unnumbered_node, same, same']

theorem operators {e : Expr} (h : Completed (.chain Tier.all) ts e) :
    Completed .expression ts e := by
  intro n rest hn clear
  rw [← List.append_nil ts]
  refine Parses.bind (chain_parses h (by decide) hn (clear.sub (List.subset_cons_self _ _)))
    fun e' same => Parses.passed (clear.sub (by decide)) (Parses.pure same)

theorem chain_of_call {e : Expr} (begun : Phrase.call.Begun ts) (h : Completed .call ts e)
    (tiers : List Tier) : Completed (.chain tiers) ts e := by
  have begun' : Begins expressionStarts ts ∧ ∀ rest, startsFunction (ts ++ rest) = false :=
    ⟨begun.1.sub (by decide), begun.2⟩
  induction tiers with
  | nil => exact tightest (unprefixed begun h)
  | cons tier tighter ih => exact operand begun' ih

theorem eq_variable {e : Expr} {name : Token} (h : e.unnumbered = .variable 0 name) :
    ∃ id, e = .variable id name := by
  cases e <;> simp only [Expr.unnumbered, reduceCtorEq] at h
  cases h
  exact ⟨_, rfl⟩

theorem eq_get {e object : Expr} {name : Token} (h : e.unnumbered = .get object name) :
    ∃ object', e = .get object' name ∧ object'.unnumbered = object := by
  cases e <;> simp only [Expr.unnumbered, reduceCtorEq] at h
  cases h
  exact ⟨_, rfl, rfl⟩

theorem assignment_parses {equal : Token} {target value : Expr} {Q : Expr → Prop}
    (htarget : Completed (.chain Tier.all) ts target) (he : equal.is .equal)
    (begun : Phrase.expression.Begun us) (hvalue : Completed .expression us value)
    (hn : (ts ++ equal :: us).length ≤ n + 1) (clear : Clear expressionSymbols rest)
    (later : ∀ target' value', target'.unnumbered = target.unnumbered →
      value'.unnumbered = value.unnumbered → Parses (assignTo target' equal value') [] rest Q) :
    Parses (assignment (upTo n)) (ts ++ equal :: us) rest Q := by
  simp only [List.length_append, List.length_cons] at hn
  refine Parses.bind (chain_parses htarget (by decide) (by omega) (clear_cons _ he (by decide)))
    fun target' same => Parses.accepted (by simpa using he) ?_
  rw [← List.append_nil us]
  refine Parses.bind (recursive_expression hvalue begun.1.ne_nil (by omega) clear)
    fun value' same' => later target' value' same same'

theorem assign {name equal : Token} {id : RefId} {value : Expr} (hname : name.is .identifier)
    (he : equal.is .equal) (begun : Phrase.expression.Begun ts)
    (hvalue : Completed .expression ts value) :
    Completed .expression (name :: equal :: ts) (.assign id name value) := by
  intro n rest hn clear
  have begun' : Phrase.primary.Begun [name] := begun_cons hname (by decide) (by decide) _
  have target := chain_of_call begun' (callee begun' (reference id hname)) Tier.all
  refine assignment_parses target he begun hvalue hn clear ?_
  intro target' value' same same'
  obtain ⟨id', rfl⟩ := eq_variable same
  intro last reported lo
  refine ⟨.assign lo name value', lo + 1, rfl, ?_⟩
  simp only [Phrase.Same, Phrase.unnumbered, Expr.unnumbered, same']

theorem set {dot name equal : Token} {object value : Expr} (begun : Phrase.call.Begun ts)
    (hobject : Completed .call ts object) (hd : dot.is .dot) (hname : name.is .identifier)
    (he : equal.is .equal) (begunValue : Phrase.expression.Begun us)
    (hvalue : Completed .expression us value) :
    Completed .expression (ts ++ dot :: name :: equal :: us) (.set object name value) := by
  intro n rest hn clear
  have begun' : Phrase.call.Begun (ts ++ [dot, name]) :=
    ⟨begun.1.append _, startsFunction_append begun.2 _⟩
  have target := chain_of_call begun' (get hobject hd hname) Tier.all
  rw [show ts ++ dot :: name :: equal :: us = (ts ++ [dot, name]) ++ equal :: us by simp] at hn ⊢
  refine assignment_parses target he begunValue hvalue hn clear ?_
  intro target' value' same same'
  obtain ⟨object', rfl, sameObject⟩ := eq_get same
  refine Parses.pure ?_
  simp only [Phrase.Same, Phrase.unnumbered, Expr.unnumbered, sameObject, same']

theorem expressionStatement {semicolon : Token} {e : Expr} (h : Completed .expression ts e)
    (hs : semicolon.is .semicolon) : Completed .exprStmt (ts ++ [semicolon]) (.expression e) := by
  intro n rest hn
  simp only [List.length_append, List.length_singleton] at hn
  refine Parses.bind (h n _ (by omega) (clear_cons _ hs (by decide))) fun e' same =>
    Parses.expect hs (Parses.pure ?_)
  simp only [Phrase.Same, Phrase.unnumbered, Stmt.unnumbered] at same ⊢
  rw [same]

theorem bareVar {keyword name semicolon : Token} (hk : keyword.is .varKw)
    (hname : name.is .identifier) (hs : semicolon.is .semicolon) :
    Completed .varDecl [keyword, name, semicolon] (.var name none) := by
  refine ⟨keyword, [name, semicolon], rfl, hk, fun n rest _ => ?_⟩
  refine Parses.expect hname (Parses.passed (clear_cons _ hs (by decide)) ?_)
  exact Parses.expect hs (Parses.pure rfl)

theorem varWith {keyword name equal semicolon : Token} {e : Expr} (hk : keyword.is .varKw)
    (hname : name.is .identifier) (he : equal.is .equal) (h : Completed .expression ts e)
    (hs : semicolon.is .semicolon) :
    Completed .varDecl (keyword :: name :: equal :: (ts ++ [semicolon])) (.var name (some e)) := by
  refine ⟨keyword, _, rfl, hk, fun n rest hn => ?_⟩
  simp only [List.length_append, List.length_cons, List.length_nil] at hn
  refine Parses.expect hname (Parses.accepted (by simpa using he) ?_)
  refine Parses.bind (P := fun o => ∃ e' : Expr, o = some e' ∧ e'.unnumbered = e.unnumbered)
    ((h n _ (by omega) (clear_cons _ hs (by decide))).map fun e' same => ⟨e', rfl, same⟩) ?_
  rintro _ ⟨e', rfl, same⟩
  refine Parses.expect hs (Parses.pure ?_)
  simp only [Phrase.Same, Phrase.unnumbered, Stmt.unnumbered, same]

theorem absent : Completed .optional [] none := by
  rintro n s rest - - ⟨t, us, rfl, ht⟩
  exact Parses.met ht (Parses.pure rfl)

theorem present {e : Expr} (begun : Phrase.expression.Begun ts) (h : Completed .expression ts e) :
    Completed .optional ts (some e) := by
  intro n s rest hn closing follow
  have apart : ∀ s' ∈ expressionStarts, s' ∉ [s] := by
    rcases closing with rfl | rfl <;> decide
  refine Parses.unmet (begun.1.clear apart rest) ((h n rest hn (follow.clear ?_)).map ?_)
  · rcases closing with rfl | rfl <;> decide
  · intro e' same
    exact congrArg some same

theorem startVar {s : Stmt} (h : Completed .varDecl ts s) : Completed .forStart ts (some s) := by
  obtain ⟨keyword, us, rfl, hk, h⟩ := h
  intro n rest hn
  simp only [List.length_cons] at hn
  exact Parses.peeked hk (Parses.skip ((h n rest (by omega)).map fun s' same => congrArg some same))

theorem startExpr {s : Stmt} (begun : Phrase.exprStmt.Begun ts) (h : Completed .exprStmt ts s) :
    Completed .forStart ts (some s) := by
  intro n rest hn
  have clear : Clear [.semicolon, .varKw] (ts ++ rest) := begun.1.clear (by decide) rest
  refine Parses.unpeeked clear fun next other => ?_
  split
  next => exact absurd rfl (other .semicolon (by decide))
  next => exact absurd rfl (other .varKw (by decide))
  next => exact (h n rest hn).map fun s' same => congrArg some same

theorem noStart {semicolon : Token} (hs : semicolon.is .semicolon) :
    Completed .forStart [semicolon] none := by
  intro n rest _
  exact Parses.peeked hs (Parses.skip (Parses.pure rfl))

theorem statementRule_parses {g : Grammar} {t : Token} {s : Symbol} {Q : Stmt → Prop} (ht : t.is s)
    (h : Parses (statementFrom g t (some s)) (t :: ts) rest Q) :
    Parses (statementRule g) (t :: ts) rest Q := by
  intro last reported lo
  rw [statementRule_apply, List.cons_append, next?_cons ht]
  exact h last reported lo

def statementKeywords : List Symbol :=
  [.forKw, .ifKw, .whileKw, .breakKw, .returnKw, .leftBrace, .printKw]

theorem statementFrom_other (g : Grammar) (t : Token) (next : Option Symbol)
    (other : ∀ s ∈ statementKeywords, next ≠ some s) :
    statementFrom g t next = Grammar.expressionStatement g := by
  unfold statementFrom
  split
  iterate 7
    next => exact absurd rfl (other _ (by decide))
  next => rfl

theorem exprStmt {s : Stmt} (begun : Phrase.exprStmt.Begun ts) (h : Completed .exprStmt ts s) :
    Completed (.statement false) ts s := by
  intro n rest hn _ last reported lo
  have clear : Clear statementKeywords (ts ++ rest) := begun.1.clear (by decide) rest
  rw [statementRule_apply, statementFrom_other _ _ _ fun s mem next => Clear.next? clear next mem]
  exact h n rest hn last reported lo

theorem blockStmt {body : List Stmt} (h : Completed .block ts body) :
    Completed (.statement false) ts (.block body) := by
  obtain ⟨opening, us, rfl, ho, h⟩ := h
  intro n rest hn _
  simp only [List.length_cons] at hn
  refine statementRule_parses ho (Parses.skip ((h n rest (by omega)).map ?_))
  intro body' same
  exact congrArg Stmt.block same

theorem printStmt {keyword semicolon : Token} {e : Expr} (hk : keyword.is .printKw)
    (h : Completed .expression ts e) (hs : semicolon.is .semicolon) :
    Completed (.statement false) (keyword :: (ts ++ [semicolon])) (.print e) := by
  intro n rest hn _
  simp only [List.length_append, List.length_cons, List.length_nil] at hn
  refine statementRule_parses hk (Parses.skip ?_)
  refine Parses.bind (h n _ (by omega) (clear_cons _ hs (by decide))) fun e' same =>
    Parses.expect hs (Parses.pure ?_)
  exact congrArg Stmt.print same

theorem breakStmt {keyword semicolon : Token} (hk : keyword.is .breakKw)
    (hs : semicolon.is .semicolon) :
    Completed (.statement false) [keyword, semicolon] (.breakLoop keyword) := by
  intro n rest _ _
  exact statementRule_parses hk (Parses.skip (Parses.expect hs (Parses.pure rfl)))

theorem unnumbered_returnFrom (keyword : Token) (value : Option Expr) :
    (Stmt.returnFrom keyword value).unnumbered = .returnFrom keyword (value.map Expr.unnumbered) := by
  cases value <;> rfl

theorem returnStmt {keyword semicolon : Token} {value : Option Expr} (hk : keyword.is .returnKw)
    (h : Completed .optional ts value) (hs : semicolon.is .semicolon) :
    Completed (.statement false) (keyword :: (ts ++ [semicolon])) (.returnFrom keyword value) := by
  intro n rest hn _
  simp only [List.length_append, List.length_cons, List.length_nil] at hn
  refine statementRule_parses hk (Parses.skip ?_)
  refine Parses.bind (h n .semicolon _ (by omega) (.inl rfl) ⟨semicolon, _, rfl, hs⟩)
    fun value' same => Parses.expect hs (Parses.pure ?_)
  simp only [Phrase.Same, Phrase.unnumbered, unnumbered_returnFrom] at same ⊢
  rw [same]

theorem conditionAfter_parses {opening closing : Token} {condition : Expr} (keyword : Symbol)
    (ho : opening.is .leftParen) (h : Completed .expression ts condition)
    (hc : closing.is .rightParen) (hn : ts.length ≤ n + 1) :
    Parses (conditionAfter (upTo n) keyword) (opening :: (ts ++ [closing])) rest fun e =>
      e.unnumbered = condition.unnumbered :=
  Parses.expect ho (Parses.bind (h n _ hn (clear_cons _ hc (by decide))) fun _ same =>
    Parses.expect hc (Parses.pure same))

theorem whileStmt {d : Bool} {keyword opening closing : Token} {condition : Expr} {body : Stmt}
    (hk : keyword.is .whileKw) (ho : opening.is .leftParen)
    (hcondition : Completed .expression ts condition) (hc : closing.is .rightParen)
    (begun : (Phrase.statement d).Begun us) (hbody : Completed (.statement d) us body) :
    Completed (.statement d) (keyword :: opening :: (ts ++ closing :: us))
      (.loop condition body) := by
  intro n rest hn follow
  simp only [List.length_append, List.length_cons] at hn
  refine statementRule_parses hk (Parses.skip ?_)
  rw [show opening :: (ts ++ closing :: us) = opening :: (ts ++ [closing]) ++ us by simp]
  refine Parses.bind (conditionAfter_parses .whileKw ho hcondition hc (by omega))
    fun condition' same => ?_
  refine (recursive_statement hbody begun.1.ne_nil (by omega) follow).bind_pure fun body' same' => ?_
  simp only [Phrase.Same, Phrase.unnumbered, Stmt.unnumbered] at same' ⊢
  rw [same, same']

theorem ifStmt {d : Bool} {keyword opening closing : Token} {condition : Expr} {thenBranch : Stmt}
    (hk : keyword.is .ifKw) (ho : opening.is .leftParen)
    (hcondition : Completed .expression ts condition) (hc : closing.is .rightParen)
    (begun : (Phrase.statement d).Begun us) (hthen : Completed (.statement d) us thenBranch) :
    Completed (.statement true) (keyword :: opening :: (ts ++ closing :: us))
      (.conditional condition thenBranch none) := by
  intro n rest hn follow
  simp only [List.length_append, List.length_cons] at hn
  refine statementRule_parses hk (Parses.skip ?_)
  rw [show opening :: (ts ++ closing :: us) = opening :: (ts ++ [closing]) ++ us by simp]
  refine Parses.bind (conditionAfter_parses .ifKw ho hcondition hc (by omega))
    fun condition' same => ?_
  rw [← List.append_nil us]
  refine Parses.bind (recursive_statement hthen begun.1.ne_nil (by omega) fun _ => follow rfl)
    fun then' same' => Parses.passed (follow rfl) (Parses.pure ?_)
  simp only [Phrase.Same, Phrase.unnumbered, Stmt.unnumbered] at same' ⊢
  rw [same, same']

theorem ifElseStmt {d : Bool} {keyword opening closing otherwise : Token} {condition : Expr}
    {thenBranch elseBranch : Stmt} (hk : keyword.is .ifKw) (ho : opening.is .leftParen)
    (hcondition : Completed .expression ts condition) (hc : closing.is .rightParen)
    (begun : (Phrase.statement false).Begun us)
    (hthen : Completed (.statement false) us thenBranch) (he : otherwise.is .elseKw)
    (begunElse : (Phrase.statement d).Begun vs) (helse : Completed (.statement d) vs elseBranch) :
    Completed (.statement d) (keyword :: opening :: (ts ++ closing :: (us ++ otherwise :: vs)))
      (.conditional condition thenBranch (some elseBranch)) := by
  intro n rest hn follow
  simp only [List.length_append, List.length_cons] at hn
  refine statementRule_parses hk (Parses.skip ?_)
  rw [show opening :: (ts ++ closing :: (us ++ otherwise :: vs)) =
    opening :: (ts ++ [closing]) ++ (us ++ otherwise :: vs) by simp]
  refine Parses.bind (conditionAfter_parses .ifKw ho hcondition hc (by omega))
    fun condition' same => ?_
  refine Parses.bind (recursive_statement hthen begun.1.ne_nil (by omega) (by simp))
    fun then' same' => Parses.accepted (by simpa using he) ?_
  refine (recursive_statement helse begunElse.1.ne_nil (by omega) follow).bind_pure
    fun else' same'' => ?_
  simp only [Phrase.Same, Phrase.unnumbered, Stmt.unnumbered] at same' same'' ⊢
  rw [same, same', same'']

theorem unnumbered_desugarFor {start start' : Option Stmt}
    {condition condition' increment increment' : Option Expr} {body body' : Stmt}
    (hstart : Phrase.forStart.Same start' start)
    (hcondition : Phrase.optional.Same condition' condition)
    (hincrement : Phrase.optional.Same increment' increment)
    (hbody : body'.unnumbered = body.unnumbered) :
    (desugarFor start' condition' increment' body').unnumbered =
      (desugarFor start condition increment body).unnumbered := by
  simp only [Phrase.Same, Phrase.unnumbered] at hstart hcondition hincrement
  cases start <;> cases start' <;> simp only [Option.map, reduceCtorEq, Option.some.injEq] at hstart <;>
    cases condition <;> cases condition' <;>
    simp only [Option.map, reduceCtorEq, Option.some.injEq] at hcondition <;>
    cases increment <;> cases increment' <;>
    simp only [Option.map, reduceCtorEq, Option.some.injEq] at hincrement <;>
    simp only [desugarFor, Option.getD, Stmt.unnumbered, unnumberedStmts, *]

theorem forStmt {d : Bool} {keyword opening middle closing : Token} {ws : List Token}
    {start : Option Stmt} {condition increment : Option Expr} {body : Stmt}
    (hk : keyword.is .forKw) (ho : opening.is .leftParen) (hstart : Completed .forStart ts start)
    (hcondition : Completed .optional us condition) (hm : middle.is .semicolon)
    (hincrement : Completed .optional vs increment) (hc : closing.is .rightParen)
    (begun : (Phrase.statement d).Begun ws) (hbody : Completed (.statement d) ws body) :
    Completed (.statement d) (keyword :: opening :: (ts ++ (us ++ middle :: (vs ++ closing :: ws))))
      (afterStart (.loop (conditionOr (.literal (.boolean true)) condition)
        (withIncrement body increment)) start) := by
  intro n rest hn follow
  simp only [List.length_append, List.length_cons] at hn
  rw [← desugarFor_eq]
  refine statementRule_parses hk (Parses.skip (Parses.expect ho ?_))
  refine Parses.bind (hstart n _ (by omega)) fun start' same₁ => ?_
  refine Parses.bind (hcondition n .semicolon _ (by omega) (.inl rfl) ⟨middle, _, rfl, hm⟩)
    fun condition' same₂ => Parses.expect hm ?_
  refine Parses.bind (hincrement n .rightParen _ (by omega) (.inr rfl) ⟨closing, _, rfl, hc⟩)
    fun increment' same₃ => Parses.expect hc ?_
  refine (recursive_statement hbody begun.1.ne_nil (by omega) follow).bind_pure fun body' same₄ => ?_
  exact unnumbered_desugarFor same₁ same₂ same₃ same₄

theorem noDeclarations : Completed .declarations [] [] := by
  intro n k found stop rest _ _ ends
  cases k with
  | zero => exact Parses.pure ⟨[], by simp, rfl⟩
  | succ k =>
    intro last reported lo
    refine ⟨found.reverse, lo, ?_, [], by simp, rfl⟩
    exact bind_ok (ends.here last reported lo) _

theorem declarationRound {d : Bool} {s : Stmt} {body : List Stmt} {n k : Nat}
    {stop : Parser Bool} {rest : List Token} (found : List Stmt)
    (first : Parses (upTo n).declaration ts (us ++ rest) fun o =>
      ∃ s', o = some s' ∧ (Phrase.declaration d).Same s' s)
    (others : ∀ found, Parses (declarationsUntil stop (upTo n).declaration k found) us rest fun ys =>
      ∃ body', ys = found.reverse ++ body' ∧ Phrase.declarations.Same body' body) :
    Parses ((upTo n).declaration >>= fun
        | some s => declarationsUntil stop (upTo n).declaration k (s :: found)
        | none => declarationsUntil stop (upTo n).declaration k found) (ts ++ us) rest fun ys =>
      ∃ body', ys = found.reverse ++ body' ∧ Phrase.declarations.Same body' (s :: body) := by
  refine Parses.bind first ?_
  rintro _ ⟨s', rfl, same⟩
  refine (others (s' :: found)).weaken ?_
  rintro _ ⟨body', rfl, same'⟩
  refine ⟨s' :: body', by simp, ?_⟩
  simp only [Phrase.Same, Phrase.unnumbered, unnumberedStmts] at same same' ⊢
  rw [same, same']

theorem moreDeclarations {d : Bool} {s : Stmt} {body : List Stmt}
    (begun : (Phrase.declaration d).Begun ts) (first : Completed (.declaration d) ts s)
    (next : Phrase.declarations.Begun us) (others : Completed .declarations us body) :
    Completed .declarations (ts ++ us) (s :: body) := by
  intro n k found stop rest hn hk ends
  simp only [List.length_append] at hn hk
  have nonempty := List.length_pos_iff.mpr begun.ne_nil
  cases k with
  | zero => omega
  | succ k =>
    -- A dangling `if` would take an `else`, but no declaration begins with one.
    have follow : Clear [.elseKw] (us ++ rest) := by
      rcases next with rfl | next
      · exact ends.follow
      · exact next.clear (by decide) rest
    have round := declarationRound found
      (recursive_declaration first begun.ne_nil (by omega) fun _ => follow)
      fun found => others n k found stop rest (by omega) (by omega) ends
    intro last reported lo
    have running := ends.before (ts ++ us ++ rest) last reported lo
      ((begun.append us).append rest)
    obtain ⟨ys, hi, run, h⟩ := round last reported lo
    refine ⟨ys, hi, ?_, h⟩
    exact (bind_ok running _).trans run

theorem ends_block {closing : Token} (hc : closing.is .rightBrace) (rest : List Token) :
    Ends atBlockEnd (closing :: rest) := by
  refine ⟨fun last reported lo => ?_, fun ts last reported lo begins => ?_, ?_⟩
  · rw [atBlockEnd_apply, hc]
  · have clear : Clear [.rightBrace] (ts ++ []) := begins.clear (by decide) []
    obtain ⟨t, us, rfl, -⟩ := begins
    have other := clear t (us ++ []) rfl
    simp only [List.any_cons, List.any_nil, Bool.or_false, Bool.not_eq_true] at other
    rw [atBlockEnd_apply, other]
  · exact clear_cons rest hc (by decide)

theorem block {opening closing : Token} {body : List Stmt} (ho : opening.is .leftBrace)
    (h : Completed .declarations ts body) (hc : closing.is .rightBrace) :
    Completed .block (opening :: (ts ++ [closing])) body := by
  refine ⟨opening, _, rfl, ho, fun n rest hn => ?_⟩
  simp only [List.length_append, List.length_singleton] at hn
  refine Parses.bind (h n _ [] atBlockEnd _ (by omega) ?_ (ends_block hc _)) ?_
  · simp only [rounds, size_upTo]
    omega
  · rintro _ ⟨body', rfl, same⟩
    exact Parses.expect hc (Parses.pure same)

theorem function {name opening closing : Token} {params : List Token} {body : List Stmt}
    (hname : name.is .identifier) (ho : opening.is .leftParen)
    (hps : Completed .parameters ts params) (hc : closing.is .rightParen)
    (hb : Completed .block us body) :
    Completed .function (name :: opening :: (ts ++ closing :: us)) ⟨some name, params, body⟩ := by
  intro n rest routine hn
  simp only [List.length_cons] at hn
  exact Parses.expect hname (Parses.expect ho
    (functionRest_parses (some name) routine hps hc hb (by omega)))

theorem noFunctions : Completed .functions [] [] := by
  intro n k found rest _ _ close
  cases k with
  | zero => exact Parses.pure ⟨[], by simp, rfl⟩
  | succ k =>
    obtain ⟨closing, us, rfl, hc⟩ := close
    intro last reported lo
    refine ⟨found.reverse, lo, ?_, [], by simp, rfl⟩
    exact bind_ok ((ends_block hc us).here last reported lo) _

theorem moreFunctions {f : Function} {fs : List Function} (begun : Phrase.function.Begun ts)
    (first : Completed .function ts f) (others : Completed .functions us fs) :
    Completed .functions (ts ++ us) (f :: fs) := by
  intro n k found rest hn hk close
  have begun : Begins declarationStarts ts := Heads.begins begun (by decide)
  simp only [List.length_append] at hn hk
  have nonempty := List.length_pos_iff.mpr begun.ne_nil
  cases k with
  | zero => omega
  | succ k =>
    have round : Parses (namedFunction (upTo n) .method >>= fun f => methods (upTo n) k (f :: found))
        (ts ++ us) rest fun ys =>
          ∃ fs', ys = found.reverse ++ fs' ∧ Phrase.functions.Same fs' (f :: fs) := by
      refine Parses.bind (first n _ .method (by omega)) fun f' same => ?_
      refine (others n k (f' :: found) rest (by omega) (by omega) close).weaken ?_
      rintro _ ⟨fs', rfl, same'⟩
      refine ⟨f' :: fs', by simp, ?_⟩
      simp only [Phrase.Same, Phrase.unnumbered, unnumberedFunctions] at same same' ⊢
      rw [same, same']
    obtain ⟨closing, vs, rfl, hc⟩ := close
    intro last reported lo
    have running := (ends_block hc vs).before (ts ++ us ++ closing :: vs) last reported lo
      ((begun.append us).append _)
    obtain ⟨ys, hi, run, h⟩ := round last reported lo
    refine ⟨ys, hi, ?_, h⟩
    exact (bind_ok running _).trans run

theorem noSuperclass : Completed .superclass [] none := fun _ clear =>
  Parses.passed clear (Parses.pure rfl)

theorem superclass {less name : Token} {id : RefId} (hl : less.is .less)
    (hname : name.is .identifier) :
    Completed .superclass [less, name] (some (.variable id name)) := by
  intro rest _
  refine Parses.accepted (by simpa using hl) (Parses.expect hname ?_)
  exact fun last reported lo => ⟨_, lo + 1, rfl, rfl⟩

theorem declarationBody_keyword {g : Grammar} {t : Token} {s : Symbol} {Q : Stmt → Prop}
    (ht : t.is s) (apart : s ≠ .funKw)
    (h : Parses (declarationFrom g false (some s)) (t :: ts) rest Q) :
    Parses (declarationBody g) (t :: ts) rest Q := by
  intro last reported lo
  rw [declarationBody_apply, List.cons_append, next?_cons ht, startsFunction_of_is ht apart]
  exact h last reported lo

theorem classDecl {keyword name opening closing : Token} {parent : Option Expr}
    {methods : List Function} (hk : keyword.is .classKw) (hname : name.is .identifier)
    (hparent : Completed .superclass us parent) (ho : opening.is .leftBrace)
    (hmethods : Completed .functions vs methods) (hc : closing.is .rightBrace) :
    Completed (.declaration false) (keyword :: name :: (us ++ opening :: (vs ++ [closing])))
      (.classDecl name parent methods) := by
  intro n rest hn _
  simp only [List.length_append, List.length_cons, List.length_nil] at hn
  refine declarationBody_keyword hk (by decide) (Parses.skip (Parses.expect hname ?_))
  refine Parses.bind (hparent _ (clear_cons _ ho (by decide))) fun parent' same =>
    Parses.expect ho ?_
  refine Parses.bind (hmethods n _ [] _ (by omega) ?_ ⟨closing, _, rfl, hc⟩) ?_
  · simp only [rounds, size_upTo]
    omega
  · rintro _ ⟨methods', rfl, same'⟩
    refine Parses.expect hc (Parses.pure ?_)
    simp only [Phrase.Same, Phrase.unnumbered] at same same' ⊢
    cases parent <;> cases parent' <;>
      simp only [Option.map, reduceCtorEq, Option.some.injEq] at same <;>
      simp [Stmt.unnumbered, *]

theorem funDecl {keyword : Token} {f : Function} (hk : keyword.is .funKw)
    (begun : Phrase.function.Begun ts) (h : Completed .function ts f) :
    Completed (.declaration false) (keyword :: ts) (.function f) := by
  intro n rest hn _ last reported lo
  simp only [List.length_cons] at hn
  have starts : startsFunction (keyword :: ts ++ rest) = true := by
    obtain ⟨name, us, rfl, hname⟩ := begun
    simp [startsFunction, hk, hname]
  rw [declarationBody_apply, starts]
  have named : Parses (Stmt.function <$> namedFunction (upTo n) .function) ts rest
      ((Phrase.declaration false).Same · (.function f)) :=
    (h n rest .function (by omega)).map fun f' same => congrArg Stmt.function same
  exact named last reported lo

theorem varDecl {s : Stmt} (h : Completed .varDecl ts s) : Completed (.declaration false) ts s := by
  obtain ⟨keyword, us, rfl, hk, h⟩ := h
  intro n rest hn _
  simp only [List.length_cons] at hn
  exact declarationBody_keyword hk (by decide) (Parses.skip (h n rest (by omega)))

theorem statement {d : Bool} {s : Stmt} (begun : (Phrase.statement d).Begun ts)
    (h : Completed (.statement d) ts s) : Completed (.declaration d) ts s := by
  intro n rest hn follow last reported lo
  have clear : Clear [.classKw, .varKw] (ts ++ rest) := begun.1.clear (by decide) rest
  have other (next : Option Symbol) (apart : ∀ s ∈ [.classKw, .varKw], next ≠ some s) :
      declarationFrom (upTo n) false next = statementRule (upTo n) := by
    unfold declarationFrom
    split
    next absurd => cases absurd
    next =>
      split
      next => exact absurd rfl (apart .classKw (by decide))
      next => exact absurd rfl (apart .varKw (by decide))
      next => rfl
  rw [declarationBody_apply, begun.2 rest, other _ fun s mem next => Clear.next? clear next mem]
  exact h n rest hn follow last reported lo

end Completed

theorem Derives.completed {p : Phrase} {ts : List Token} {x : p.Tree} (h : Derives p ts x) :
    Completed p ts x := by
  -- Besides its parts being read, a rule needs to know with which tokens they begin.
  induction h with
  | noDeclarations => exact .noDeclarations
  | moreDeclarations h h' ih ih' => exact .moreDeclarations h.begun ih h'.begun ih'
  | classDecl hk hname _ ho _ hc ih ih' => exact .classDecl hk hname ih ho ih' hc
  | funDecl hk h ih => exact .funDecl hk h.begun ih
  | varDecl _ ih => exact .varDecl ih
  | statement h ih => exact .statement h.begun ih
  | noSuperclass => exact .noSuperclass
  | superclass hl hname => exact .superclass hl hname
  | noFunctions => exact .noFunctions
  | moreFunctions h _ ih ih' => exact .moreFunctions h.begun ih ih'
  | function hname ho _ hc _ ih ih' => exact .function hname ho ih hc ih'
  | noParameters => exact .noParameters
  | parameters h bound ih => exact .parameters h.begun ih bound
  | lastName hname => exact .lastName hname
  | moreNames hname hc _ ih => exact .moreNames hname hc ih
  | bareVar hk hname hs => exact .bareVar hk hname hs
  | varWith hk hname he _ hs ih => exact .varWith hk hname he ih hs
  | block ho _ hc ih => exact .block ho ih hc
  | exprStmt h ih => exact .exprStmt h.begun ih
  | expressionStatement _ hs ih => exact .expressionStatement ih hs
  | blockStmt _ ih => exact .blockStmt ih
  | printStmt hk _ hs ih => exact .printStmt hk ih hs
  | breakStmt hk hs => exact .breakStmt hk hs
  | returnStmt hk _ hs ih => exact .returnStmt hk ih hs
  | whileStmt hk ho _ hc h ih ih' => exact .whileStmt hk ho ih hc h.begun ih'
  | ifStmt hk ho _ hc h ih ih' => exact .ifStmt hk ho ih hc h.begun ih'
  | ifElseStmt hk ho _ hc h he h' ih ih' ih'' =>
    exact .ifElseStmt hk ho ih hc h.begun ih' he h'.begun ih''
  | forStmt hk ho _ _ hm _ hc h ih₁ ih₂ ih₃ ih₄ =>
    exact .forStmt hk ho ih₁ ih₂ hm ih₃ hc h.begun ih₄
  | startVar _ ih => exact .startVar ih
  | startExpr h ih => exact .startExpr h.begun ih
  | noStart hs => exact .noStart hs
  | absent => exact .absent
  | present h ih => exact .present h.begun ih
  | assign hname he h ih => exact .assign hname he h.begun ih
  | set h hd hname he h' ih ih' => exact .set h.begun ih hd hname he h'.begun ih'
  | operators _ ih => exact .operators ih
  | operand h ih => exact .operand h.begun ih
  | link _ hop h ih ih' => exact .link ih hop h.begun ih'
  | tightest _ ih => exact .tightest ih
  | prefixed hop _ ih => exact .prefixed hop ih
  | unprefixed h ih => exact .unprefixed h.begun ih
  | callee h ih => exact .callee h.begun ih
  | call _ ho _ hc ih ih' => exact .call ih ho ih' hc
  | get _ hd hname ih => exact .get ih hd hname
  | noArguments => exact .noArguments
  | arguments h bound ih => exact .arguments h.begun ih bound
  | lastExpression h ih => exact .lastExpression h.begun ih
  | moreExpressions h hc _ ih ih' => exact .moreExpressions h.begun ih hc ih'
  | number h => exact .literal fun g => by simp only [Grammar.primaryFrom, h]
  | string h => exact .literal fun g => by simp only [Grammar.primaryFrom, h]
  | trueLit ht | falseLit ht | nilLit ht =>
    have kind := (Token.is_iff _ _).mp ht
    exact .literal fun g => by simp only [Grammar.primaryFrom, kind]
  | this ht => exact .this _ ht
  | reference ht => exact .reference _ ht
  | grouping ho h hc ih => exact .grouping ho h.begun ih hc
  | super hk hd hm => exact .super hk hd hm
  | anonymous hk ho _ hc _ ih ih' => exact .anonymous hk ho ih hc ih'

end Quill
