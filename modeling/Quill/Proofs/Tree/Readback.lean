import Quill.Proofs.Tree.Spelling

set_option autoImplicit false

namespace Quill

def Token.bare (t : Token) : Token :=
  { t with line := 1 }

mutual

def Expr.bare : Expr → Expr
  | .literal value => .literal value
  | .grouping inner => .grouping inner.bare
  | .unary operator operand => .unary operator.bare operand.bare
  | .binary left operator right => .binary left.bare operator.bare right.bare
  | .logical left operator right => .logical left.bare operator.bare right.bare
  | .variable _ name => .variable 0 name.bare
  | .assign _ name value => .assign 0 name.bare value.bare
  | .call callee paren arguments => .call callee.bare paren.bare (bareExprs arguments)
  | .get object name => .get object.bare name.bare
  | .set object name value => .set object.bare name.bare value.bare
  | .this _ keyword => .this 0 keyword.bare
  | .super _ keyword method => .super 0 keyword.bare method.bare
  | .function f => .function f.bare

def bareExprs : List Expr → List Expr
  | [] => []
  | e :: rest => e.bare :: bareExprs rest

def Function.bare : Function → Function
  | ⟨name, params, body⟩ => ⟨name.map Token.bare, params.map Token.bare, bareStmts body⟩

def bareFunctions : List Function → List Function
  | [] => []
  | f :: rest => f.bare :: bareFunctions rest

def Stmt.bare : Stmt → Stmt
  | .expression e => .expression e.bare
  | .print e => .print e.bare
  | .var name none => .var name.bare none
  | .var name (some e) => .var name.bare (some e.bare)
  | .block body => .block (bareStmts body)
  | .conditional condition thenBranch none => .conditional condition.bare thenBranch.bare none
  | .conditional condition thenBranch (some elseBranch) =>
    .conditional condition.bare thenBranch.bare (some elseBranch.bare)
  | .loop condition body => .loop condition.bare body.bare
  | .breakLoop keyword => .breakLoop keyword.bare
  | .returnFrom keyword none => .returnFrom keyword.bare none
  | .returnFrom keyword (some e) => .returnFrom keyword.bare (some e.bare)
  | .function f => .function f.bare
  | .classDecl name none methods => .classDecl name.bare none (bareFunctions methods)
  | .classDecl name (some superclass) methods =>
    .classDecl name.bare (some superclass.bare) (bareFunctions methods)

def bareStmts : List Stmt → List Stmt
  | [] => []
  | s :: rest => s.bare :: bareStmts rest

end

noncomputable def numberOf (text : String) : Float :=
  Function.invFunOn (fun x : Float => Literal.numberText (.ofFloat x))
    {x | (Double.ofFloat x).IsFinite} text

theorem numberOf_numberText {x : Float} (finite : (Double.ofFloat x).IsFinite) :
    numberOf (Literal.numberText (.ofFloat x)) = x := by
  have injective : Set.InjOn (fun x : Float => Literal.numberText (.ofFloat x))
      {x | (Double.ofFloat x).IsFinite} :=
    fun _ finite _ finite' same => Literal.numberText_injective finite finite' same
  exact injective.leftInvOn_invFunOn finite

def operatorOf (text : String) : Token :=
  symbolToken ((Symbol.all.find? (·.spelling == text)).getD .eof)

noncomputable def wordExpr (text : String) : Expr :=
  match text with
  | "nil" => .literal .nil
  | "true" => .literal (.boolean true)
  | "false" => .literal (.boolean false)
  | "this" => .this 0 (symbolToken .thisKw)
  | _ =>
    if text.toList.head?.any fun c => c.isAlpha || c == '_' then .variable 0 (nameToken text)
    else .literal (.number (numberOf text))

structure Meaning where
  word : String
  words : List String
  expr : Expr
  stmt : Stmt
  body : List Stmt
  function : Function

namespace Meaning

noncomputable def ofWord (text : String) : Meaning :=
  ⟨text, [], wordExpr text, default, [], ⟨none, [], []⟩⟩

def exprOf (head : String) (parts : List Meaning) : Expr :=
  match head, parts with
  | "group", [inner] => .grouping inner.expr
  | "=", [name, value] => .assign 0 (nameToken name.word) value.expr
  | "call", callee :: arguments =>
    .call callee.expr (symbolToken .rightParen) (arguments.map Meaning.expr)
  | "get", [object, name] => .get object.expr (nameToken name.word)
  | "set", [object, name, value] => .set object.expr (nameToken name.word) value.expr
  | "super", [method] => .super 0 (symbolToken .superKw) (nameToken method.word)
  | "and", [left, right] => .logical left.expr (symbolToken .andKw) right.expr
  | "or", [left, right] => .logical left.expr (symbolToken .orKw) right.expr
  | operator, [operand] => .unary (operatorOf operator) operand.expr
  | operator, [left, right] => .binary left.expr (operatorOf operator) right.expr
  | _, _ => default

def functionOf (parts : List Meaning) : Function :=
  match parts with
  | [name, params, body] => ⟨some (nameToken name.word), params.words.map nameToken, body.body⟩
  | _ => ⟨none, [], []⟩

def classOf (name : Meaning) (parts : List Meaning) : Stmt :=
  match parts with
  | mark :: superclass :: methods =>
    if mark.word = "<" then
      .classDecl (nameToken name.word) (some superclass.expr) (methods.map Meaning.function)
    else .classDecl (nameToken name.word) none (parts.map Meaning.function)
  | _ => .classDecl (nameToken name.word) none (parts.map Meaning.function)

def stmtOf (head : String) (parts : List Meaning) : Stmt :=
  match head, parts with
  | ";", [e] => .expression e.expr
  | "print", [e] => .print e.expr
  | "var", [name] => .var (nameToken name.word) none
  | "var", [name, e] => .var (nameToken name.word) (some e.expr)
  | "if", [condition, thenBranch] => .conditional condition.expr thenBranch.stmt none
  | "if", [condition, thenBranch, elseBranch] =>
    .conditional condition.expr thenBranch.stmt (some elseBranch.stmt)
  | "while", [condition, body] => .loop condition.expr body.stmt
  | "break", [] => .breakLoop (symbolToken .breakKw)
  | "return", [] => .returnFrom (symbolToken .returnKw) none
  | "return", [e] => .returnFrom (symbolToken .returnKw) (some e.expr)
  | "fun", parts => .function (functionOf parts)
  | "class", name :: parts => classOf name parts
  | _, _ => default

def ofParen (parts : List Meaning) : Meaning :=
  match parts with
  | [] => ⟨"", [], default, default, [], ⟨none, [], []⟩⟩
  | head :: rest =>
    ⟨"", parts.map Meaning.word, exprOf head.word rest, stmtOf head.word rest, [], functionOf rest⟩

def ofBrace (parts : List Meaning) : Meaning :=
  ⟨"", [], default, .block (parts.map Meaning.stmt), parts.map Meaning.stmt, ⟨none, [], []⟩⟩

end Meaning

mutual

noncomputable def Form.meaning : Form → Meaning
  | .word text => .ofWord text
  | .paren parts => .ofParen (meanings parts)
  | .brace parts => .ofBrace (meanings parts)

noncomputable def meanings : List Form → List Meaning
  | [] => []
  | f :: rest => f.meaning :: meanings rest

end

def Node.Legible : Node → Prop
  | .expr (.literal (.number value)) => (Double.ofFloat value).IsFinite
  | .expr (.literal (.string _)) | .expr (.function _) => False
  | _ => True

structure Node.Readable (n : Node) : Prop where
  shaped : n.Shaped
  spelled : ∀ t ∈ n.tokens, t.Spelled
  legible : n.Legible

def ReadableIn (sites : List Site) : Prop :=
  ∀ s ∈ sites, s.node.Readable

@[simp] theorem readableIn_append (a b : List Site) :
    ReadableIn (a ++ b) ↔ ReadableIn a ∧ ReadableIn b :=
  List.forall_mem_append

@[simp] theorem readableIn_cons (s : Site) (a : List Site) :
    ReadableIn (s :: a) ↔ s.node.Readable ∧ ReadableIn a :=
  List.forall_mem_cons

theorem Token.nameToken_lexeme {t : Token} (name : t.is .identifier) :
    nameToken t.lexeme = t.bare := by
  have kind := (t.is_iff _).mp name
  unfold nameToken Token.bare
  rw [← kind]

theorem operatorOf_spelling :
    ∀ s ∈ Symbol.bang :: binarySymbols, operatorOf s.spelling = symbolToken s := by
  have all : ∀ s ∈ Symbol.bang :: binarySymbols,
      Symbol.all.find? (·.spelling == s.spelling) = some s := by decide
  intro s mem
  rw [operatorOf, all s mem, Option.getD_some]

namespace Node.Readable

variable {n : Node} {t : Token} (h : n.Readable) (mem : t ∈ n.tokens)

include h mem

theorem symbol {s : Symbol} (other : s ≠ .identifier) (same : t.is s) :
    symbolToken s = t.bare := by
  have kind := (t.is_iff _).mp same
  unfold symbolToken Token.bare
  rw [← kind, (h.spelled t mem).symbol s other same]

theorem operator {symbols : List Symbol} (operators : .identifier ∉ symbols)
    (among : symbols.any t.is) : ∃ s ∈ symbols, t.lexeme = s.spelling ∧ symbolToken s = t.bare := by
  obtain ⟨s, known, same⟩ := List.any_eq_true.mp among
  have other : s ≠ .identifier := fun name => operators (name ▸ known)
  exact ⟨s, known, (h.spelled t mem).symbol s other same, h.symbol mem other same⟩

end Node.Readable

theorem wordExpr_name {text : String} (h : IsName text) :
    wordExpr text = .variable 0 (nameToken text) := by
  unfold wordExpr
  split
  next => exact absurd rfl (h.noKeyword .nilKw (by decide))
  next => exact absurd rfl (h.noKeyword .trueKw (by decide))
  next => exact absurd rfl (h.noKeyword .falseKw (by decide))
  next => exact absurd rfl (h.noKeyword .thisKw (by decide))
  next =>
    obtain ⟨c, rest, same, first⟩ := h.first
    rw [same, if_pos (by simpa using first)]

theorem wordExpr_number {x : Float} (finite : (Double.ofFloat x).IsFinite) :
    wordExpr (Literal.numberText (.ofFloat x)) = .literal (.number x) := by
  obtain ⟨-, c, rest, same, first⟩ := Literal.numberText_word finite
  -- Neither a digit nor a sign begins a name, or one of the four words.
  have noLetter : (c.isAlpha || c == '_') = false := by
    rcases first with digit | rfl
    · have noAlpha : c.isAlpha = false := by
        grind [Char.isDigit, Char.isAlpha, Char.isUpper, Char.isLower]
      rw [noAlpha, Bool.false_or, beq_eq_false_iff_ne]
      rintro rfl
      cases digit
    · rfl
  generalize text : Literal.numberText (.ofFloat x) = number at same
  have read := numberOf_numberText finite
  rw [text] at read
  unfold wordExpr
  split
  next => cases same; cases noLetter
  next => cases same; cases noLetter
  next => cases same; cases noLetter
  next => cases same; cases noLetter
  next => rw [same, if_neg (by simp [noLetter]), read]

theorem exprOf_unary {s : Symbol} (mem : s ∈ [Symbol.bang, .minus]) (operand : Meaning) :
    Meaning.exprOf s.spelling [operand] = .unary (operatorOf s.spelling) operand.expr := by
  simp only [List.mem_cons, List.not_mem_nil, or_false] at mem
  rcases mem with rfl | rfl <;> rfl

theorem exprOf_binary {s : Symbol} (mem : s ∈ binarySymbols) (left right : Meaning) :
    Meaning.exprOf s.spelling [left, right] =
      .binary left.expr (operatorOf s.spelling) right.expr := by
  simp only [binarySymbols, List.mem_cons, List.not_mem_nil, or_false] at mem
  rcases mem with rfl | rfl | rfl | rfl | rfl | rfl | rfl | rfl | rfl | rfl <;> rfl

theorem exprOf_logical {s : Symbol} (mem : s ∈ [Symbol.andKw, .orKw]) (left right : Meaning) :
    Meaning.exprOf s.spelling [left, right] = .logical left.expr (symbolToken s) right.expr := by
  simp only [List.mem_cons, List.not_mem_nil, or_false] at mem
  rcases mem with rfl | rfl <;> rfl

mutual

theorem Expr.form_meaning (around : List Layer) :
    ∀ e : Expr, ReadableIn (e.sites around) → e.form.meaning.expr = e.bare
  | .literal .nil, _ | .literal (.boolean true), _ | .literal (.boolean false), _ => rfl
  | .literal (.number _), h => wordExpr_number (h _ List.mem_cons_self).legible
  -- The text of a string may be that of a name, and the text of a function does not show its body.
  | .literal (.string _), h | .function _, h => (h _ List.mem_cons_self).legible.elim
  | .grouping e, h => by
    obtain ⟨-, inner⟩ := (readableIn_cons _ _).mp h
    exact congrArg Expr.grouping (e.form_meaning around inner)
  | .unary operator e, h => by
    obtain ⟨node, inner⟩ := (readableIn_cons _ _).mp h
    obtain ⟨s, mem, lexeme, token⟩ := node.operator List.mem_cons_self (by decide) node.shaped
    have known : [Symbol.bang, .minus] ⊆ .bang :: binarySymbols := by decide
    change Meaning.exprOf operator.lexeme [e.form.meaning] = .unary operator.bare e.bare
    rw [lexeme, exprOf_unary mem, operatorOf_spelling s (known mem), token,
      e.form_meaning around inner]
  | .binary left operator right, h => by
    obtain ⟨node, inner⟩ := (readableIn_cons _ _).mp h
    obtain ⟨first, second⟩ := (readableIn_append _ _).mp inner
    obtain ⟨s, mem, lexeme, token⟩ := node.operator List.mem_cons_self (by decide) node.shaped
    change Meaning.exprOf operator.lexeme [left.form.meaning, right.form.meaning] =
      .binary left.bare operator.bare right.bare
    rw [lexeme, exprOf_binary mem, operatorOf_spelling s (List.mem_cons_of_mem _ mem), token,
      left.form_meaning around first, right.form_meaning around second]
  | .logical left operator right, h => by
    obtain ⟨node, inner⟩ := (readableIn_cons _ _).mp h
    obtain ⟨first, second⟩ := (readableIn_append _ _).mp inner
    obtain ⟨s, mem, lexeme, token⟩ := node.operator List.mem_cons_self (by decide) node.shaped
    change Meaning.exprOf operator.lexeme [left.form.meaning, right.form.meaning] =
      .logical left.bare operator.bare right.bare
    rw [lexeme, exprOf_logical mem, token, left.form_meaning around first,
      right.form_meaning around second]
  | .variable _ name, h => by
    have node := h _ List.mem_cons_self
    rw [Expr.bare, ← Token.nameToken_lexeme node.shaped]
    exact wordExpr_name ((node.spelled name List.mem_cons_self).name node.shaped)
  | .assign _ name value, h => by
    obtain ⟨node, inner⟩ := (readableIn_cons _ _).mp h
    rw [Expr.bare, ← Token.nameToken_lexeme node.shaped, ← value.form_meaning around inner]
    rfl
  | .call callee paren arguments, h => by
    obtain ⟨node, inner⟩ := (readableIn_cons _ _).mp h
    obtain ⟨first, later⟩ := (readableIn_append _ _).mp inner
    have token := node.symbol (t := paren) List.mem_cons_self (by decide) node.shaped.1
    rw [Expr.bare, ← token, ← callee.form_meaning around first,
      ← exprForms_meanings around arguments later]
    rfl
  | .get object name, h => by
    obtain ⟨node, inner⟩ := (readableIn_cons _ _).mp h
    rw [Expr.bare, ← Token.nameToken_lexeme node.shaped, ← object.form_meaning around inner]
    rfl
  | .set object name value, h => by
    obtain ⟨node, inner⟩ := (readableIn_cons _ _).mp h
    obtain ⟨first, second⟩ := (readableIn_append _ _).mp inner
    rw [Expr.bare, ← Token.nameToken_lexeme node.shaped, ← value.form_meaning around first,
      ← object.form_meaning around second]
    rfl
  | .this _ keyword, h => by
    have node := h _ List.mem_cons_self
    rw [Expr.bare, ← node.symbol List.mem_cons_self (by decide) node.shaped]
    rfl
  | .super _ keyword method, h => by
    have node := h _ List.mem_cons_self
    rw [Expr.bare, ← Token.nameToken_lexeme node.shaped.2,
      ← node.symbol List.mem_cons_self (by decide) node.shaped.1]
    rfl

theorem exprForms_meanings (around : List Layer) :
    ∀ es : List Expr, ReadableIn (exprSites around es) →
      (meanings (exprForms es)).map Meaning.expr = bareExprs es
  | [], _ => rfl
  | e :: rest, h => by
    obtain ⟨first, later⟩ := (readableIn_append _ _).mp h
    exact congrArg₂ List.cons (e.form_meaning around first) (exprForms_meanings around rest later)

end

theorem Function.paramsForm_words (f : Function) :
    f.paramsForm.meaning.words = f.params.map Token.lexeme := by
  have words (params : List Token) :
      (meanings (params.map fun param => .word param.lexeme)).map Meaning.word =
        params.map Token.lexeme := by
    induction params with
    | nil => rfl
    | cons param rest ih => exact congrArg (param.lexeme :: ·) ih
  cases params : f.params with
  | nil =>
    rw [paramsForm, params]
    rfl
  | cons param rest =>
    rw [← params, ← words, paramsForm, params]
    rfl

theorem classOf_methods (name : Meaning) (methods : List Function) :
    Meaning.classOf name (meanings (functionForms methods)) =
      .classDecl (nameToken name.word) none
        ((meanings (functionForms methods)).map Meaning.function) := by
  match methods with
  | [] | [_] => rfl
  | ⟨_, _, _⟩ :: _ :: _ => rfl

mutual

theorem Stmt.form_meaning (around : List Layer) :
    ∀ s : Stmt, ReadableIn (s.sites around) → s.form.meaning.stmt = s.bare
  | .expression e, h | .print e, h => by
    obtain ⟨-, inner⟩ := (readableIn_cons _ _).mp h
    rw [Stmt.bare, ← e.form_meaning around inner]
    rfl
  | .var name none, h => by
    have node := h _ List.mem_cons_self
    rw [Stmt.bare, ← Token.nameToken_lexeme node.shaped]
    rfl
  | .var name (some e), h => by
    obtain ⟨node, inner⟩ := (readableIn_cons _ _).mp h
    rw [Stmt.bare, ← Token.nameToken_lexeme node.shaped, ← e.form_meaning around inner]
    rfl
  | .block body, h => by
    obtain ⟨-, inner⟩ := (readableIn_cons _ _).mp h
    rw [Stmt.bare, ← stmtForms_meanings (.block :: around) body inner]
    rfl
  | .conditional condition thenBranch none, h => by
    obtain ⟨-, inner⟩ := (readableIn_cons _ _).mp h
    obtain ⟨first, second⟩ := (readableIn_append _ _).mp inner
    rw [Stmt.bare, ← condition.form_meaning around first, ← thenBranch.form_meaning around second]
    rfl
  | .conditional condition thenBranch (some elseBranch), h => by
    obtain ⟨-, inner⟩ := (readableIn_cons _ _).mp h
    simp only [readableIn_append] at inner
    rw [Stmt.bare, ← condition.form_meaning around inner.1,
      ← thenBranch.form_meaning around inner.2.1, ← elseBranch.form_meaning around inner.2.2]
    rfl
  | .loop condition body, h => by
    obtain ⟨-, inner⟩ := (readableIn_cons _ _).mp h
    obtain ⟨first, second⟩ := (readableIn_append _ _).mp inner
    rw [Stmt.bare, ← condition.form_meaning around first,
      ← body.form_meaning (.loop :: around) second]
    rfl
  -- The text of a keyword is not rendered from the node, so it is known from the shape alone.
  | .breakLoop keyword, h => by
    have node := h _ List.mem_cons_self
    rw [Stmt.bare, ← node.symbol List.mem_cons_self (by decide) node.shaped]
    rfl
  | .returnFrom keyword none, h => by
    have node := h _ List.mem_cons_self
    rw [Stmt.bare, ← node.symbol List.mem_cons_self (by decide) node.shaped]
    rfl
  | .returnFrom keyword (some e), h => by
    obtain ⟨node, inner⟩ := (readableIn_cons _ _).mp h
    rw [Stmt.bare, ← node.symbol List.mem_cons_self (by decide) node.shaped,
      ← e.form_meaning around inner]
    rfl
  | .function ⟨name, params, body⟩, h => by
    obtain ⟨node, inner⟩ := (readableIn_cons _ _).mp h
    rw [Stmt.bare, ← Function.form_meaning (.function :: around) _ inner node.shaped]
    rfl
  | .classDecl name none methods, h => by
    obtain ⟨node, inner⟩ := (readableIn_cons _ _).mp h
    rw [Stmt.bare, ← Token.nameToken_lexeme node.shaped.1,
      ← functionForms_meanings around false methods inner node.shaped.2.2]
    exact classOf_methods _ methods
  | .classDecl name (some superclass) methods, h => by
    obtain ⟨node, inner⟩ := (readableIn_cons _ _).mp h
    obtain ⟨first, second⟩ := (readableIn_append _ _).mp inner
    rw [Stmt.bare, ← Token.nameToken_lexeme node.shaped.1, ← superclass.form_meaning around first,
      ← functionForms_meanings around true methods second node.shaped.2.2]
    rfl

theorem stmtForms_meanings (around : List Layer) :
    ∀ body : List Stmt, ReadableIn (stmtSites around body) →
      (meanings (stmtForms body)).map Meaning.stmt = bareStmts body
  | [], _ => rfl
  | s :: rest, h => by
    obtain ⟨first, later⟩ := (readableIn_append _ _).mp h
    exact congrArg₂ List.cons (s.form_meaning around first) (stmtForms_meanings around rest later)

theorem Function.form_meaning (around : List Layer) :
    ∀ f : Function, ReadableIn (f.sites around) → (∃ name, f.name = some name) →
      f.form.meaning.function = f.bare
  | ⟨none, _, _⟩, _, named => by
    obtain ⟨_, same⟩ := named
    cases same
  | ⟨some name, params, body⟩, h, _ => by
    obtain ⟨node, inner⟩ := (readableIn_cons _ _).mp h
    have named : nameToken name.lexeme = name.bare :=
      Token.nameToken_lexeme (node.shaped.1 name rfl)
    have listed : (params.map Token.lexeme).map nameToken = params.map Token.bare := by
      rw [List.map_map]
      exact List.map_congr_left fun param mem =>
        Token.nameToken_lexeme (node.shaped.2.2 param mem)
    rw [Function.bare, Option.map_some, ← named, ← listed,
      ← Function.paramsForm_words ⟨some name, params, body⟩,
      ← stmtForms_meanings around body inner]
    rfl

theorem functionForms_meanings (around : List Layer) (inherits : Bool) :
    ∀ fs : List Function, ReadableIn (methodSites around inherits fs) →
      (∀ f ∈ fs, ∃ name, f.name = some name) →
      (meanings (functionForms fs)).map Meaning.function = bareFunctions fs
  | [], _, _ => rfl
  | f :: rest, h, named => by
    obtain ⟨first, later⟩ := (readableIn_append _ _).mp h
    obtain ⟨isNamed, named⟩ := List.forall_mem_cons.mp named
    exact congrArg₂ List.cons (f.form_meaning _ first isNamed)
      (functionForms_meanings around inherits rest later named)

end

end Quill
