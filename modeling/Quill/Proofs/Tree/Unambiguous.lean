import Quill.Proofs.Tree.Readback

set_option autoImplicit false

namespace Quill

def Node.sites (around : List Layer) : Node → List Site
  | .expr e => e.sites around
  | .stmt s => s.sites around
  | .routine f => f.sites around

def Nested (sites : List Site) : Prop :=
  ∀ s ∈ sites, s.node.sites s.around ⊆ sites

theorem nested_nil : Nested [] :=
  fun _ mem => by cases mem

theorem Nested.append {a b : List Site} (h : Nested a) (h' : Nested b) : Nested (a ++ b) := by
  intro s mem
  rcases List.mem_append.mp mem with mem | mem
  · exact List.Subset.trans (h s mem) (List.subset_append_left a b)
  · exact List.Subset.trans (h' s mem) (List.subset_append_right a b)

theorem Nested.cons {s : Site} {a : List Site} (h : Nested a)
    (own : s.node.sites s.around = s :: a) : Nested (s :: a) := by
  intro s' mem
  rcases List.mem_cons.mp mem with rfl | mem
  · exact own ▸ List.Subset.refl _
  · exact List.Subset.trans (h s' mem) (List.subset_cons_self s a)

mutual

theorem Expr.nested (around : List Layer) : ∀ e : Expr, Nested (e.sites around)
  | .literal _ | .variable .. | .this .. | .super .. => nested_nil.cons rfl
  | .grouping e | .unary _ e | .get e _ | .assign _ _ e => (e.nested around).cons rfl
  | .binary left _ right | .logical left _ right =>
    ((left.nested around).append (right.nested around)).cons rfl
  | .call callee _ arguments =>
    ((callee.nested around).append (exprSites_nested around arguments)).cons rfl
  | .set object _ value => ((value.nested around).append (object.nested around)).cons rfl
  | .function f => (f.nested (.anonymous :: around)).cons rfl

theorem exprSites_nested (around : List Layer) :
    ∀ es : List Expr, Nested (exprSites around es)
  | [] => nested_nil
  | e :: rest => (e.nested around).append (exprSites_nested around rest)

theorem Function.nested (around : List Layer) : ∀ f : Function, Nested (f.sites around)
  | ⟨_, _, body⟩ => (stmtSites_nested around body).cons rfl

theorem methodSites_nested (around : List Layer) (inherits : Bool) :
    ∀ fs : List Function, Nested (methodSites around inherits fs)
  | [] => nested_nil
  | f :: rest => (f.nested _).append (methodSites_nested around inherits rest)

theorem Stmt.nested (around : List Layer) : ∀ s : Stmt, Nested (s.sites around)
  | .expression e | .print e | .var _ (some e) | .returnFrom _ (some e) =>
    (e.nested around).cons rfl
  | .var _ none | .breakLoop _ | .returnFrom _ none => nested_nil.cons rfl
  | .block body => (stmtSites_nested (.block :: around) body).cons rfl
  | .conditional condition thenBranch none =>
    ((condition.nested around).append (thenBranch.nested around)).cons rfl
  | .conditional condition thenBranch (some elseBranch) =>
    ((condition.nested around).append
      ((thenBranch.nested around).append (elseBranch.nested around))).cons rfl
  | .loop condition body =>
    ((condition.nested around).append (body.nested (.loop :: around))).cons rfl
  | .function f => (f.nested (.function :: around)).cons rfl
  | .classDecl _ none methods => (methodSites_nested around false methods).cons rfl
  | .classDecl _ (some superclass) methods =>
    ((superclass.nested around).append (methodSites_nested around true methods)).cons rfl

theorem stmtSites_nested (around : List Layer) :
    ∀ body : List Stmt, Nested (stmtSites around body)
  | [] => nested_nil
  | s :: rest => (s.nested around).append (stmtSites_nested around rest)

end

theorem isWord_operator : ∀ s ∈ Symbol.bang :: .andKw :: .orKw :: binarySymbols,
    IsWord s.spelling := by
  simp [binarySymbols, Symbol.spelling, IsWord]

namespace Node.Readable

variable {n : Node} {t : Token} (h : n.Readable) (mem : t ∈ n.tokens)

include h mem

theorem word (name : t.is .identifier) : IsWord t.lexeme :=
  ((h.spelled t mem).name name).word

theorem operator_word {symbols : List Symbol} (operators : .identifier ∉ symbols)
    (among : symbols.any t.is) (known : symbols ⊆ .bang :: .andKw :: .orKw :: binarySymbols) :
    IsWord t.lexeme := by
  obtain ⟨s, one, lexeme, -⟩ := h.operator mem operators among
  rw [lexeme]
  exact isWord_operator s (known one)

end Node.Readable

mutual

theorem Expr.form_worded (around : List Layer) :
    ∀ e : Expr, ReadableIn (e.sites around) → e.form.Worded
  | .literal .nil, _ | .literal (.boolean true), _ | .literal (.boolean false), _ => by
    simp [Expr.form, Form.Worded, Literal.render, IsWord]
  | .literal (.number _), h => (Literal.numberText_word (h _ List.mem_cons_self).legible).1
  -- Strings and anonymous functions are not legible, so there are none.
  | .literal (.string _), h | .function _, h => (h _ List.mem_cons_self).legible.elim
  | .grouping e, h => by
    obtain ⟨-, inner⟩ := (readableIn_cons _ _).mp h
    exact ⟨by simp [Form.Worded, IsWord], e.form_worded around inner, trivial⟩
  | .unary operator e, h => by
    obtain ⟨node, inner⟩ := (readableIn_cons _ _).mp h
    have word := node.operator_word List.mem_cons_self (by decide) node.shaped (by decide)
    exact ⟨word, e.form_worded around inner, trivial⟩
  | .binary left operator right, h => by
    obtain ⟨node, inner⟩ := (readableIn_cons _ _).mp h
    obtain ⟨first, second⟩ := (readableIn_append _ _).mp inner
    have word := node.operator_word List.mem_cons_self (by decide) node.shaped (by decide)
    exact ⟨word, left.form_worded around first, right.form_worded around second, trivial⟩
  | .logical left operator right, h => by
    obtain ⟨node, inner⟩ := (readableIn_cons _ _).mp h
    obtain ⟨first, second⟩ := (readableIn_append _ _).mp inner
    have word := node.operator_word List.mem_cons_self (by decide) node.shaped (by decide)
    exact ⟨word, left.form_worded around first, right.form_worded around second, trivial⟩
  | .variable _ name, h => by
    have node := h _ List.mem_cons_self
    exact node.word List.mem_cons_self node.shaped
  | .assign _ name value, h => by
    obtain ⟨node, inner⟩ := (readableIn_cons _ _).mp h
    exact ⟨by simp [Form.Worded, IsWord], node.word List.mem_cons_self node.shaped,
      value.form_worded around inner, trivial⟩
  | .call callee paren arguments, h => by
    obtain ⟨-, inner⟩ := (readableIn_cons _ _).mp h
    obtain ⟨first, later⟩ := (readableIn_append _ _).mp inner
    exact ⟨by simp [Form.Worded, IsWord], callee.form_worded around first,
      exprForms_worded around arguments later⟩
  | .get object name, h => by
    obtain ⟨node, inner⟩ := (readableIn_cons _ _).mp h
    exact ⟨by simp [Form.Worded, IsWord], object.form_worded around inner,
      node.word List.mem_cons_self node.shaped, trivial⟩
  | .set object name value, h => by
    obtain ⟨node, inner⟩ := (readableIn_cons _ _).mp h
    obtain ⟨first, second⟩ := (readableIn_append _ _).mp inner
    exact ⟨by simp [Form.Worded, IsWord], object.form_worded around second,
      node.word List.mem_cons_self node.shaped, value.form_worded around first, trivial⟩
  | .this .., _ => by simp [Expr.form, Form.Worded, IsWord]
  | .super _ keyword method, h => by
    have node := h _ List.mem_cons_self
    exact ⟨by simp [Form.Worded, IsWord],
      node.word (List.mem_cons_of_mem _ List.mem_cons_self) node.shaped.2, trivial⟩

theorem exprForms_worded (around : List Layer) :
    ∀ es : List Expr, ReadableIn (exprSites around es) → WordedForms (exprForms es)
  | [], _ => trivial
  | e :: rest, h => by
    obtain ⟨first, later⟩ := (readableIn_append _ _).mp h
    exact ⟨e.form_worded around first, exprForms_worded around rest later⟩

end

mutual

theorem Stmt.form_worded (around : List Layer) :
    ∀ s : Stmt, ReadableIn (s.sites around) → s.form.Worded
  | .expression e, h | .print e, h => by
    obtain ⟨-, inner⟩ := (readableIn_cons _ _).mp h
    exact ⟨by simp [Form.Worded, IsWord], e.form_worded around inner, trivial⟩
  | .var name none, h => by
    have node := h _ List.mem_cons_self
    exact ⟨by simp [Form.Worded, IsWord], node.word List.mem_cons_self node.shaped, trivial⟩
  | .var name (some e), h => by
    obtain ⟨node, inner⟩ := (readableIn_cons _ _).mp h
    exact ⟨by simp [Form.Worded, IsWord], node.word List.mem_cons_self node.shaped,
      e.form_worded around inner, trivial⟩
  | .block body, h => by
    obtain ⟨-, inner⟩ := (readableIn_cons _ _).mp h
    exact stmtForms_worded (.block :: around) body inner
  | .conditional condition thenBranch none, h => by
    obtain ⟨-, inner⟩ := (readableIn_cons _ _).mp h
    obtain ⟨first, second⟩ := (readableIn_append _ _).mp inner
    exact ⟨by simp [Form.Worded, IsWord], condition.form_worded around first,
      thenBranch.form_worded around second, trivial⟩
  | .conditional condition thenBranch (some elseBranch), h => by
    obtain ⟨-, inner⟩ := (readableIn_cons _ _).mp h
    simp only [readableIn_append] at inner
    exact ⟨by simp [Form.Worded, IsWord], condition.form_worded around inner.1,
      thenBranch.form_worded around inner.2.1, elseBranch.form_worded around inner.2.2, trivial⟩
  | .loop condition body, h => by
    obtain ⟨-, inner⟩ := (readableIn_cons _ _).mp h
    obtain ⟨first, second⟩ := (readableIn_append _ _).mp inner
    exact ⟨by simp [Form.Worded, IsWord], condition.form_worded around first,
      body.form_worded (.loop :: around) second, trivial⟩
  | .breakLoop _, _ | .returnFrom _ none, _ => by
    simp [Stmt.form, Form.Worded, WordedForms, IsWord]
  | .returnFrom _ (some e), h => by
    obtain ⟨-, inner⟩ := (readableIn_cons _ _).mp h
    exact ⟨by simp [Form.Worded, IsWord], e.form_worded around inner, trivial⟩
  | .function f, h => by
    obtain ⟨node, inner⟩ := (readableIn_cons _ _).mp h
    exact f.form_worded (.function :: around) inner node.shaped
  | .classDecl name none methods, h => by
    obtain ⟨node, inner⟩ := (readableIn_cons _ _).mp h
    exact ⟨by simp [Form.Worded, IsWord], node.word List.mem_cons_self node.shaped.1,
      functionForms_worded around false methods inner node.shaped.2.2⟩
  | .classDecl name (some superclass) methods, h => by
    obtain ⟨node, inner⟩ := (readableIn_cons _ _).mp h
    obtain ⟨first, second⟩ := (readableIn_append _ _).mp inner
    exact ⟨by simp [Form.Worded, IsWord], node.word List.mem_cons_self node.shaped.1,
      by simp [Form.Worded, IsWord], superclass.form_worded around first,
      functionForms_worded around true methods second node.shaped.2.2⟩

theorem stmtForms_worded (around : List Layer) :
    ∀ body : List Stmt, ReadableIn (stmtSites around body) → WordedForms (stmtForms body)
  | [], _ => trivial
  | s :: rest, h => by
    obtain ⟨first, later⟩ := (readableIn_append _ _).mp h
    exact ⟨s.form_worded around first, stmtForms_worded around rest later⟩

theorem Function.form_worded (around : List Layer) :
    ∀ f : Function, ReadableIn (f.sites around) → (∃ name, f.name = some name) → f.form.Worded
  | ⟨none, _, _⟩, _, named => by
    obtain ⟨_, same⟩ := named
    cases same
  | ⟨some name, params, body⟩, h, _ => by
    obtain ⟨node, inner⟩ := (readableIn_cons _ _).mp h
    have words : ∀ ps ⊆ params, WordedForms (ps.map fun param => .word param.lexeme) := by
      intro ps sub
      induction ps with
      | nil => trivial
      | cons param rest ih =>
        obtain ⟨mem, sub⟩ := List.cons_subset.mp sub
        exact ⟨node.word (List.mem_cons_of_mem _ mem) (node.shaped.2.2 param mem), ih sub⟩
    exact ⟨by simp [Form.Worded, IsWord], node.word List.mem_cons_self (node.shaped.1 name rfl),
      words params (List.Subset.refl _), stmtForms_worded around body inner, trivial⟩

theorem functionForms_worded (around : List Layer) (inherits : Bool) :
    ∀ fs : List Function, ReadableIn (methodSites around inherits fs) →
      (∀ f ∈ fs, ∃ name, f.name = some name) → WordedForms (functionForms fs)
  | [], _, _ => trivial
  | f :: rest, h, named => by
    obtain ⟨first, later⟩ := (readableIn_append _ _).mp h
    obtain ⟨isNamed, named⟩ := List.forall_mem_cons.mp named
    exact ⟨f.form_worded _ first isNamed, functionForms_worded around inherits rest later named⟩

end

/-- A node of a tree that some source is parsed as, at any depth. -/
def Node.Parsed (n : Node) : Prop :=
  ∃ source tokens lo hi around, scanTokens source = .ok tokens ∧
    ((∃ program, parseProgram lo tokens = .ok (program, hi) ∧
        ⟨around, n⟩ ∈ stmtSites [] program) ∨
      ∃ e, parseExpression lo tokens = .ok (e, hi) ∧ ⟨around, n⟩ ∈ e.sites [])

/-- There is no string in it, no anonymous function and no number that is not finite. -/
def Node.LegibleWithin (n : Node) : Prop :=
  ∀ around, ∀ s ∈ n.sites around, s.node.Legible

theorem readableIn_of_parsed {sites within : List Site} (shaped : ShapedIn sites)
    (spelled : AllIn Token.Spelled sites) (sub : within ⊆ sites)
    (legible : ∀ s ∈ within, s.node.Legible) : ReadableIn within :=
  fun s mem => ⟨shaped s (sub mem), spelled s (sub mem), legible s mem⟩

theorem Node.Parsed.readable {n : Node} (h : n.Parsed) (legible : n.LegibleWithin) :
    ∃ around, ReadableIn (n.sites around) := by
  obtain ⟨source, tokens, lo, hi, around, scanned, within⟩ := h
  have spelled := scanTokens_spelled scanned
  refine ⟨around, ?_⟩
  rcases within with ⟨program, parsed, mem⟩ | ⟨e, parsed, mem⟩
  · have derives := (parseProgram_derives parsed).1
    exact readableIn_of_parsed (derives.shaped []) (derives.all spelled [])
      (stmtSites_nested [] program _ mem) (legible around)
  · have derives := (parseExpression_derives parsed).1
    exact readableIn_of_parsed (derives.shaped []) (derives.all spelled [])
      (e.nested [] _ mem) (legible around)

/-- Two statements from sources, or two expressions, in which there are no strings, no anonymous
functions and only finite numbers, are printed alike only if they are the same tree, apart from the
identities of references and the lines of tokens. -/
theorem render_injective :
    (∀ s t : Stmt, (Node.stmt s).Parsed → (Node.stmt t).Parsed →
      (Node.stmt s).LegibleWithin → (Node.stmt t).LegibleWithin →
      s.render = t.render → s.bare = t.bare) ∧
    ∀ d e : Expr, (Node.expr d).Parsed → (Node.expr e).Parsed →
      (Node.expr d).LegibleWithin → (Node.expr e).LegibleWithin →
      d.render = e.render → d.bare = e.bare := by
  constructor
  · intro s t parsed parsed' legible legible' same
    obtain ⟨around, readable⟩ := parsed.readable legible
    obtain ⟨around', readable'⟩ := parsed'.readable legible'
    have forms : s.form = t.form := by
      apply Form.text_injective (s.form_worded around readable) (t.form_worded around' readable')
      rw [s.form_text, t.form_text, same]
    rw [← s.form_meaning around readable, forms, t.form_meaning around' readable']
  · intro d e parsed parsed' legible legible' same
    obtain ⟨around, readable⟩ := parsed.readable legible
    obtain ⟨around', readable'⟩ := parsed'.readable legible'
    have forms : d.form = e.form := by
      apply Form.text_injective (d.form_worded around readable) (e.form_worded around' readable')
      rw [d.form_text, e.form_text, same]
    rw [← d.form_meaning around readable, forms, e.form_meaning around' readable']

def onOneLine : List UInt8 :=
  "if (a) b = -a;".toUTF8.data.toList

def onTwoLines : List UInt8 :=
  "c; if (a)\nb=-a;".toUTF8.data.toList

def laidOut (id : RefId) (line : Nat) : Expr :=
  .assign (id + 3) { nameToken "b" with line }
    (.unary { symbolToken .minus with line } (.variable (id + 2) { nameToken "a" with line }))

theorem render_injective_layout :
    ∃ s t : Stmt, ∃ d e : Expr, (Node.stmt s).Parsed ∧ (Node.stmt t).Parsed ∧
      (Node.expr d).Parsed ∧ (Node.expr e).Parsed ∧ s ≠ t ∧ d ≠ e ∧
      s.bare = t.bare ∧ d.bare = e.bare := by
  let statement (id : RefId) (line : Nat) : Stmt :=
    .conditional (.variable id (nameToken "a")) (.expression (laidOut id line)) none
  have scanned : ∃ tokens, scanTokens onOneLine = .ok tokens ∧
      parseProgram 0 tokens = .ok ([statement 0 1], 4) :=
    ⟨[symbolToken .ifKw, symbolToken .leftParen, nameToken "a", symbolToken .rightParen,
      nameToken "b", symbolToken .equal, symbolToken .minus, nameToken "a",
      symbolToken .semicolon, ⟨.symbol .eof, "", 1⟩], by cbv, by cbv⟩
  have scanned' : ∃ tokens, scanTokens onTwoLines = .ok tokens ∧
      parseProgram 0 tokens = .ok
        ([.expression (.variable 0 (nameToken "c")), statement 1 2], 5) :=
    ⟨[nameToken "c", symbolToken .semicolon, symbolToken .ifKw, symbolToken .leftParen,
      nameToken "a", symbolToken .rightParen] ++
      [nameToken "b", symbolToken .equal, symbolToken .minus, nameToken "a",
        symbolToken .semicolon, ⟨.symbol .eof, "", 1⟩].map ({ · with line := 2 }), by cbv, by cbv⟩
  obtain ⟨tokens, scanned, parsed⟩ := scanned
  obtain ⟨tokens', scanned', parsed'⟩ := scanned'
  -- The second program has a statement more in front, so its identities are others too.
  have first : (Node.stmt (statement 0 1)).Parsed :=
    ⟨_, tokens, 0, _, [], scanned, .inl ⟨_, parsed, by simp [statement, stmtSites, Stmt.sites]⟩⟩
  have second : (Node.stmt (statement 1 2)).Parsed :=
    ⟨_, tokens', 0, _, [], scanned', .inl ⟨_, parsed', by simp [statement, stmtSites, Stmt.sites]⟩⟩
  have third : (Node.expr (laidOut 0 1)).Parsed :=
    ⟨_, tokens, 0, _, [], scanned, .inl ⟨_, parsed, by
      simp [statement, laidOut, stmtSites, Stmt.sites, Expr.sites]⟩⟩
  have fourth : (Node.expr (laidOut 1 2)).Parsed :=
    ⟨_, tokens', 0, _, [], scanned', .inl ⟨_, parsed', by
      simp [statement, laidOut, stmtSites, Stmt.sites, Expr.sites]⟩⟩
  have legible (id line) : (Node.stmt (statement id line)).LegibleWithin := by
    simp [Node.LegibleWithin, Node.sites, statement, laidOut, Stmt.sites, Expr.sites, Node.Legible]
  have legible' (id line) : (Node.expr (laidOut id line)).LegibleWithin := by
    simp [Node.LegibleWithin, Node.sites, laidOut, Expr.sites, Node.Legible]
  have alike := render_injective.1 _ _ first second (legible 0 1) (legible 1 2) rfl
  have alike' := render_injective.2 _ _ third fourth (legible' 0 1) (legible' 1 2) rfl
  refine ⟨_, _, _, _, first, second, third, fourth, ?_, ?_, alike, alike'⟩
  · simp [statement]
  · simp [laidOut]

end Quill
