import Quill.Proofs.Grammar.Soundness
import Quill.Session

set_option autoImplicit false

namespace Quill

def Token.Plain (t : Token) : Prop :=
  t.lexeme ≠ "this" ∧ t.lexeme ≠ "super"

def binarySymbols : List Symbol :=
  [.bangEqual, .equalEqual, .greater, .greaterEqual, .less, .lessEqual, .minus, .plus, .star, .slash]

def Stmt.declares : Stmt → Bool
  | .var .. | .function _ | .classDecl .. => true
  | _ => false

def Superclass : Option Expr → Prop
  | none => True
  | some (.variable _ name) => name.Plain
  | some _ => False

mutual

def Expr.WellFormed : Expr → Prop
  | .literal _ => True
  | .grouping inner => inner.WellFormed
  | .unary operator operand => [Symbol.bang, .minus].any operator.is ∧ operand.WellFormed
  | .binary left operator right =>
    binarySymbols.any operator.is ∧ left.WellFormed ∧ right.WellFormed
  | .logical left _ right => left.WellFormed ∧ right.WellFormed
  | .variable _ name => name.Plain
  | .assign _ name value => name.Plain ∧ value.WellFormed
  | .call callee _ arguments => callee.WellFormed ∧ WellFormedExprs arguments
  | .get object _ => object.WellFormed
  | .set object _ value => object.WellFormed ∧ value.WellFormed
  | .this _ keyword => keyword.lexeme = "this"
  | .super _ keyword _ => keyword.lexeme = "super"
  | .function f => f.WellFormed

def WellFormedExprs : List Expr → Prop
  | [] => True
  | e :: rest => e.WellFormed ∧ WellFormedExprs rest

def Function.WellFormed : Function → Prop
  | ⟨_, params, body⟩ => (∀ p ∈ params, p.Plain) ∧ WellFormedStmts body

def WellFormedFunctions : List Function → Prop
  | [] => True
  | f :: rest => f.WellFormed ∧ WellFormedFunctions rest

def Stmt.WellFormed : Stmt → Prop
  | .expression e | .print e => e.WellFormed
  | .var name none => name.Plain
  | .var name (some e) => name.Plain ∧ e.WellFormed
  | .block body => WellFormedStmts body
  | .conditional condition thenBranch none =>
    condition.WellFormed ∧ thenBranch.WellFormed ∧ thenBranch.declares = false
  | .conditional condition thenBranch (some elseBranch) =>
    condition.WellFormed ∧ (thenBranch.WellFormed ∧ thenBranch.declares = false) ∧
      elseBranch.WellFormed ∧ elseBranch.declares = false
  | .loop condition body => condition.WellFormed ∧ body.WellFormed ∧ body.declares = false
  | .breakLoop _ => True
  | .returnFrom _ none => True
  | .returnFrom _ (some e) => e.WellFormed
  | .function f => (∃ name, f.name = some name ∧ name.Plain) ∧ f.WellFormed
  | .classDecl name superclass methods =>
    name.Plain ∧ Superclass superclass ∧ WellFormedFunctions methods

def WellFormedStmts : List Stmt → Prop
  | [] => True
  | s :: rest => s.WellFormed ∧ WellFormedStmts rest

end

theorem wellFormed_of_superclass {e : Expr} (h : Superclass (some e)) : e.WellFormed := by
  cases e <;> first | exact h | cases h

theorem Function.WellFormed.body {f : Function} (wf : f.WellFormed) : WellFormedStmts f.body := by
  cases f
  exact wf.2

structure Token.Proper (t : Token) : Prop where
  name : t.is .identifier → t.Plain
  this : t.is .thisKw → t.lexeme = "this"
  super : t.is .superKw → t.lexeme = "super"

def Phrase.WellFormed : (p : Phrase) → p.Tree → Prop
  | .declarations, body => WellFormedStmts body
  | .declaration _, s => s.WellFormed
  | .varDecl, s => s.WellFormed
  | .superclass, e => Superclass e
  | .function, f => (∃ name, f.name = some name ∧ name.Plain) ∧ f.WellFormed
  | .functions, fs => WellFormedFunctions fs
  | .parameters, params => ∀ p ∈ params, p.Plain
  | .names, params => ∀ p ∈ params, p.Plain
  | .block, body => WellFormedStmts body
  | .statement _, s => s.WellFormed ∧ s.declares = false
  | .exprStmt, s => s.WellFormed ∧ s.declares = false
  | .forStart, start => ∀ s ∈ start, s.WellFormed
  | .optional, value => ∀ e ∈ value, e.WellFormed
  | .expression, e => e.WellFormed
  | .chain _, e => e.WellFormed
  | .unary, e => e.WellFormed
  | .call, e => e.WellFormed
  | .arguments, es => WellFormedExprs es
  | .expressions, es => WellFormedExprs es
  | .primary, e => e.WellFormed

theorem Tier.wellFormed_node {tier : Tier} {left right : Expr} {operator : Token}
    (hop : tier.symbols.any operator.is) (hl : left.WellFormed) (hr : right.WellFormed) :
    (tier.node left operator right).WellFormed := by
  have sub : tier ≠ .logicOr → tier ≠ .logicAnd → tier.symbols ⊆ binarySymbols := by
    cases tier <;> decide
  obtain ⟨s, mem, hit⟩ := List.any_eq_true.mp hop
  cases tier with
  | logicOr | logicAnd => exact ⟨hl, hr⟩
  | equality | comparison | term | factor =>
    exact ⟨List.any_eq_true.mpr ⟨s, sub (by decide) (by decide) mem, hit⟩, hl, hr⟩

theorem wellFormed_afterStart {start : Option Stmt} {condition increment : Option Expr} {body : Stmt}
    (hstart : ∀ s ∈ start, s.WellFormed) (hcondition : ∀ e ∈ condition, e.WellFormed)
    (hincrement : ∀ e ∈ increment, e.WellFormed) (hbody : body.WellFormed)
    (hdeclares : body.declares = false) :
    (afterStart (.loop (conditionOr (.literal (.boolean true)) condition)
      (withIncrement body increment)) start).WellFormed ∧
    (afterStart (.loop (conditionOr (.literal (.boolean true)) condition)
      (withIncrement body increment)) start).declares = false := by
  have loop : (Stmt.loop (conditionOr (.literal (.boolean true)) condition)
      (withIncrement body increment)).WellFormed := by
    refine ⟨?_, ?_, ?_⟩
    · cases condition with
      | none => trivial
      | some e => exact hcondition e rfl
    · cases increment with
      | none => exact hbody
      | some e => exact ⟨hbody, hincrement e rfl, trivial⟩
    · cases increment with
      | none => exact hdeclares
      | some e => rfl
  cases start with
  | none => exact ⟨loop, rfl⟩
  | some s => exact ⟨⟨hstart s rfl, loop, trivial⟩, rfl⟩

theorem Derives.wellFormed {p : Phrase} {ts : List Token} {x : p.Tree} (h : Derives p ts x)
    (proper : ∀ t ∈ ts, t.Proper) : p.WellFormed x := by
  induction h with try simp only [List.forall_mem_append, List.forall_mem_cons] at proper
  | noDeclarations | noSuperclass | noFunctions | noArguments => trivial
  | noParameters | noStart | absent => exact nofun
  | parameters _ _ ih | arguments _ _ ih | varDecl _ ih | exprStmt _ ih
  | operators _ ih | operand _ ih | tightest _ ih | unprefixed _ ih | callee _ ih => exact ih proper
  | startVar _ ih | present _ ih =>
    rintro _ ⟨⟩
    exact ih proper
  | startExpr _ ih =>
    rintro _ ⟨⟩
    exact (ih proper).1
  -- Declarations, and the names they bind.
  | moreDeclarations _ _ ih ih' => exact ⟨ih proper.1, ih' proper.2⟩
  | moreFunctions _ _ ih ih' => exact ⟨(ih proper.1).2, ih' proper.2⟩
  | classDecl _ hname _ _ _ _ ih ih' =>
    obtain ⟨-, name, parent, -, methods, -⟩ := proper
    exact ⟨name.name hname, ih parent, ih' methods⟩
  | funDecl _ _ ih => exact ih proper.2
  | statement _ ih => exact (ih proper).1
  | superclass _ hname => exact proper.2.1.name hname
  | function hname _ _ _ _ ih ih' =>
    obtain ⟨name, -, params, -, body⟩ := proper
    exact ⟨⟨_, rfl, name.name hname⟩, ih params, ih' body⟩
  | lastName hname => exact List.forall_mem_singleton.mpr (proper.1.name hname)
  | moreNames hname _ _ ih =>
    exact List.forall_mem_cons.mpr ⟨proper.1.name hname, ih proper.2.2⟩
  | bareVar _ hname => exact proper.2.1.name hname
  | varWith _ hname _ _ _ ih =>
    obtain ⟨-, name, -, value, -⟩ := proper
    exact ⟨name.name hname, ih value⟩
  | block _ _ _ ih => exact ih proper.2.1
  -- Statements, which are no declarations.
  | expressionStatement _ _ ih => exact ⟨ih proper.1, rfl⟩
  | blockStmt _ ih => exact ⟨ih proper, rfl⟩
  | printStmt _ _ _ ih => exact ⟨ih proper.2.1, rfl⟩
  | breakStmt => exact ⟨trivial, rfl⟩
  | @returnStmt _ _ _ value _ _ _ ih =>
    cases value with
    | none => exact ⟨trivial, rfl⟩
    | some e => exact ⟨ih proper.2.1 e rfl, rfl⟩
  | whileStmt _ _ _ _ _ ih ih' | ifStmt _ _ _ _ _ ih ih' =>
    obtain ⟨-, -, condition, -, body⟩ := proper
    exact ⟨⟨ih condition, ih' body⟩, rfl⟩
  | ifElseStmt _ _ _ _ _ _ _ ih ih' ih'' =>
    obtain ⟨-, -, condition, -, branch, -, branch'⟩ := proper
    exact ⟨⟨ih condition, ih' branch, ih'' branch'⟩, rfl⟩
  | forStmt _ _ _ _ _ _ _ _ start condition increment body =>
    obtain ⟨-, -, first, second, -, third, -, last⟩ := proper
    have inner := body last
    exact wellFormed_afterStart (start first) (condition second) (increment third) inner.1 inner.2
  -- Expressions, and the names and words they refer by.
  | assign hname _ _ ih => exact ⟨proper.1.name hname, ih proper.2.2⟩
  | set _ _ _ _ _ ih ih' =>
    obtain ⟨object, -, -, -, value⟩ := proper
    exact ⟨ih object, ih' value⟩
  | link _ hop _ ih ih' => exact Tier.wellFormed_node hop (ih proper.1) (ih' proper.2.2)
  | prefixed hop _ ih => exact ⟨hop, ih proper.2⟩
  | call _ _ _ _ ih ih' => exact ⟨ih proper.1, ih' proper.2.2.1⟩
  | get _ _ _ ih => exact ih proper.1
  | lastExpression _ ih => exact ⟨ih proper, trivial⟩
  | moreExpressions _ _ _ ih ih' => exact ⟨ih proper.1, ih' proper.2.2⟩
  | number | string | trueLit | falseLit | nilLit => trivial
  | this ht => exact proper.1.this ht
  | reference ht => exact proper.1.name ht
  | grouping _ _ _ ih => exact ih proper.2.1
  | super hk => exact proper.1.super hk
  | anonymous _ _ _ _ _ ih ih' =>
    obtain ⟨-, -, params, -, body⟩ := proper
    exact ⟨ih params, ih' body⟩

theorem proper_of_word (word : String) (line : Nat) :
    Token.Proper ⟨.symbol (.ofWord word), word, line⟩ := by
  have spelled {s : Symbol} (h : Symbol.ofWord word = s) (notName : s ≠ .identifier) :
      s.spelling = word := by
    unfold Symbol.ofWord at h
    cases found : Symbol.keywords.find? (·.spelling == word) with
    | none =>
      rw [found] at h
      exact absurd h.symm notName
    | some s' =>
      rw [found] at h
      cases h
      simpa using List.find?_some found
  refine ⟨fun h => ⟨?_, ?_⟩, fun h => ?_, fun h => ?_⟩
  · rintro rfl
    simp [Token.is, show Symbol.ofWord "this" = .thisKw from rfl] at h
  · rintro rfl
    simp [Token.is, show Symbol.ofWord "super" = .superKw from rfl] at h
  · exact (spelled (by simpa [Token.is] using h) (by decide)).symm
  · exact (spelled (by simpa [Token.is] using h) (by decide)).symm

theorem proper_of_other {s : Symbol} (lexeme : String) (line : Nat)
    (other : s ∉ [.identifier, .thisKw, .superKw]) : Token.Proper ⟨.symbol s, lexeme, line⟩ := by
  simp only [List.mem_cons, List.not_mem_nil, or_false, not_or] at other
  refine ⟨fun h => ?_, fun h => ?_, fun h => ?_⟩
  · exact absurd (by simpa [Token.is] using h) other.1
  · exact absurd (by simpa [Token.is] using h) other.2.1
  · exact absurd (by simpa [Token.is] using h) other.2.2

theorem proper_of_literal {kind : Kind} (lexeme : String) (line : Nat)
    (literal : ∀ s, kind ≠ .symbol s) : Token.Proper ⟨kind, lexeme, line⟩ := by
  have no (s : Symbol) : ¬Token.is ⟨kind, lexeme, line⟩ s := by
    cases kind with
    | symbol s' => exact absurd rfl (literal s')
    | string _ | number _ => simp [Token.is]
  exact ⟨fun h => absurd h (no _), fun h => absurd h (no _), fun h => absurd h (no _)⟩

namespace Lexeme

def Proper (l : Lexeme) : Prop :=
  ∀ kind line, l.content = .token kind → Token.Proper ⟨kind, Utf8.decodeLossy l.bytes, line⟩

theorem proper_symbol {s : Symbol} (bytes : List UInt8)
    (other : s ∉ [.identifier, .thisKw, .superKw]) :
    Proper ⟨bytes, .token (.symbol s)⟩ := by
  intro kind line same
  cases same
  exact proper_of_other _ line other

theorem proper_of_no_token {l : Lexeme} (h : ∀ kind, l.content ≠ .token kind) : l.Proper :=
  fun kind _ same => absurd same (h kind)

theorem punctuation?_other {c : Char} {s : Symbol} (h : punctuation? c = some s) :
    s ∉ [.identifier, .thisKw, .superKw] := by
  unfold punctuation? at h
  split at h <;> cases h <;> decide

theorem operators?_other {c : Char} {alone withEqual : Symbol}
    (h : operators? c = some (alone, withEqual)) :
    alone ∉ [.identifier, .thisKw, .superKw] ∧ withEqual ∉ [.identifier, .thisKw, .superKw] := by
  unfold operators? at h
  split at h <;> cases h <;> decide

theorem proper_next (first : UInt8) (rest : List UInt8) : (next first rest).1.Proper := by
  -- The cases are those of the scanner: only words may be names, and symbols never are.
  unfold next
  split
  next s h => exact proper_symbol _ (punctuation?_other h)
  next alone withEqual _ h =>
    unfold operator
    split
    next => exact proper_symbol _ (operators?_other h).1
    next =>
      split
      next => exact proper_symbol _ (operators?_other h).2
      next => exact proper_symbol _ (operators?_other h).1
  next =>
    split
    next =>
      unfold slash
      split
      next => exact proper_symbol _ (by decide)
      next =>
        split
        next => exact proper_of_no_token fun kind => by simp [comment]
        next => exact proper_symbol _ (by decide)
    split
    next => exact proper_of_no_token fun kind => by simp
    split
    next =>
      unfold string
      split
      next => exact proper_of_no_token fun kind => by simp
      next =>
        intro kind line same
        cases same
        exact proper_of_literal _ line (by simp)
    split
    next =>
      intro kind line same
      cases same
      exact proper_of_literal _ line (by simp)
    split
    next =>
      intro kind line same
      cases same
      exact proper_of_word _ line
    next => exact proper_of_no_token fun kind => by simp [unexpected]

theorem proper_split (source : List UInt8) : ∀ l ∈ split source, l.Proper := by
  induction source using split.induct with
  | case1 => simp [split]
  | case2 first rest cut ih =>
    intro l mem
    rw [split] at mem
    rcases List.mem_cons.mp mem with rfl | mem
    · exact proper_next first rest
    · exact ih l mem

end Lexeme

theorem proper_itemsFrom (line : Nat) (lexemes : List Lexeme) (h : ∀ l ∈ lexemes, l.Proper) :
    ∀ t ∈ tokensOf (itemsFrom line lexemes), t.Proper := by
  induction lexemes generalizing line with
  | nil =>
    intro t mem
    obtain rfl := List.mem_singleton.mp mem
    exact proper_of_other "" line (by decide)
  | cons l rest ih =>
    intro t mem
    have later := ih (line + l.newlines) fun l' mem' => h l' (List.mem_cons_of_mem _ mem')
    unfold itemsFrom at mem
    simp only at mem
    split at mem
    next kind content =>
      rcases List.mem_cons.mp mem with rfl | mem
      · exact h l List.mem_cons_self kind _ content
      · exact later t mem
    next => exact later t mem
    next => exact later t mem
    next => exact later t mem

theorem scanTokens_proper {source : List UInt8} {tokens : List Token}
    (h : scanTokens source = .ok tokens) : ∀ t ∈ tokens, t.Proper := by
  unfold scanTokens at h
  simp only at h
  split at h
  · cases h
    exact proper_itemsFrom 1 _ (Lexeme.proper_split source)
  · cases h

theorem prepareProgram_stages {lo : RefId} {source : List UInt8} {prepared : Prepared (List Stmt)}
    (h : prepareProgram lo source = .ok prepared) :
    ∃ tokens, scanTokens source = .ok tokens ∧
      parseProgram lo tokens = .ok (prepared.tree, prepared.nextId) ∧
      resolveProgram prepared.tree = .ok prepared.distances := by
  unfold prepareProgram at h
  cases scanned : scanTokens source with
  | error errors => rw [scanned] at h; cases h
  | ok tokens =>
    rw [scanned] at h
    change (parseProgram lo tokens >>= _) = _ at h
    cases parsed : parseProgram lo tokens with
    | error errors => rw [parsed] at h; cases h
    | ok result =>
      obtain ⟨program, hi⟩ := result
      rw [parsed] at h
      change (resolveProgram program >>= _) = _ at h
      cases resolved : resolveProgram program with
      | error errors => rw [resolved] at h; cases h
      | ok distances =>
        rw [resolved] at h
        cases h
        exact ⟨tokens, rfl, parsed, resolved⟩

theorem prepareExpression_stages {lo : RefId} {source : List UInt8} {prepared : Prepared Expr}
    (h : prepareExpression lo source = .ok prepared) :
    ∃ tokens, scanTokens source = .ok tokens ∧
      parseExpression lo tokens = .ok (prepared.tree, prepared.nextId) ∧
      resolveExpression prepared.tree = .ok prepared.distances := by
  unfold prepareExpression at h
  cases scanned : scanTokens source with
  | error errors => rw [scanned] at h; cases h
  | ok tokens =>
    rw [scanned] at h
    change (parseExpression lo tokens >>= _) = _ at h
    cases parsed : parseExpression lo tokens with
    | error errors => rw [parsed] at h; cases h
    | ok result =>
      obtain ⟨e, hi⟩ := result
      rw [parsed] at h
      change (resolveExpression e >>= _) = _ at h
      cases resolved : resolveExpression e with
      | error errors => rw [resolved] at h; cases h
      | ok distances =>
        rw [resolved] at h
        cases h
        exact ⟨tokens, rfl, parsed, resolved⟩

structure Accepted (lo : RefId) (prepared : Prepared (List Stmt)) : Prop where
  wellFormed : WellFormedStmts prepared.tree
  numbered : Numbered lo prepared.nextId ((stmtReferences prepared.tree).map (·.id))
  resolved : resolveProgram prepared.tree = .ok prepared.distances

theorem prepareProgram_accepted {lo : RefId} {source : List UInt8}
    {prepared : Prepared (List Stmt)} (h : prepareProgram lo source = .ok prepared) :
    Accepted lo prepared := by
  obtain ⟨tokens, scanned, parsed, resolved⟩ := prepareProgram_stages h
  obtain ⟨derives, numbered⟩ := parseProgram_derives parsed
  refine ⟨derives.wellFormed fun t mem => ?_, numbered, resolved⟩
  exact scanTokens_proper scanned t (List.takeWhile_subset _ mem)

end Quill
