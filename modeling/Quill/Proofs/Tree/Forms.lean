import Mathlib
import Quill.Tree.Printer

set_option autoImplicit false

namespace Quill

inductive Form where
  | word (text : String)
  | paren (parts : List Form)
  | brace (parts : List Form)

mutual

/-- There is a space between the parts of a list, and inside both braces. -/
def Form.text : Form → List Char
  | .word text => text.toList
  | .paren parts => '(' :: (joined parts ++ [')'])
  | .brace parts => '\x7b' :: (spaced parts ++ [' ', '\x7d'])

def joined : List Form → List Char
  | [] => []
  | f :: rest => f.text ++ spaced rest

def spaced : List Form → List Char
  | [] => []
  | f :: rest => ' ' :: (f.text ++ spaced rest)

end

def IsWord (text : String) : Prop :=
  text.toList ≠ [] ∧ ∀ c ∈ text.toList, c ∉ [' ', '(', ')', '\x7b', '\x7d']

mutual

def Form.Worded : Form → Prop
  | .word text => IsWord text
  | .paren parts | .brace parts => WordedForms parts

def WordedForms : List Form → Prop
  | [] => True
  | f :: rest => f.Worded ∧ WordedForms rest

end

def Closes (rest : List Char) : Prop :=
  ∀ c ∈ rest.head?, c = ' ' ∨ c = ')'

theorem IsWord.first {text : String} (h : IsWord text) :
    ∃ c rest, text.toList = c :: rest ∧ c ∉ [' ', '(', ')', '\x7b', '\x7d'] := by
  obtain ⟨c, rest, same⟩ := List.exists_cons_of_ne_nil h.1
  exact ⟨c, rest, same, h.2 c (same ▸ List.mem_cons_self)⟩

theorem Form.Worded.first {f : Form} (h : f.Worded) :
    ∃ c rest, f.text = c :: rest ∧ c ≠ ')' ∧ c ≠ '\x7d' := by
  cases f with
  | word text =>
    have word : IsWord text := h
    obtain ⟨c, rest, same, outside⟩ := word.first
    simp only [List.mem_cons, not_or] at outside
    exact ⟨c, rest, same, outside.2.2.1, outside.2.2.2.2.1⟩
  | paren parts => exact ⟨'(', _, rfl, by decide, by decide⟩
  | brace parts => exact ⟨'\x7b', _, rfl, by decide, by decide⟩

theorem IsWord.append_inj {text text' : String} (h : IsWord text) (h' : IsWord text')
    {rest rest' : List Char} (closes : Closes rest) (closes' : Closes rest')
    (same : text.toList ++ rest = text'.toList ++ rest') : text = text' ∧ rest = rest' := by
  let inside : Char → Bool := fun c => c ≠ ' ' ∧ c ≠ ')'
  have taken {word : String} (isWord : IsWord word) {after : List Char} (ends : Closes after) :
      (word.toList ++ after).takeWhile inside = word.toList := by
    have all : ∀ c ∈ word.toList, inside c := by
      intro c mem
      have outside := isWord.2 c mem
      simp only [List.mem_cons, not_or] at outside
      simp [inside, outside.1, outside.2.2.1]
    rw [List.takeWhile_append_of_pos all]
    cases after with
    | nil => simp
    | cons c _ =>
      have stops : inside c = false := by
        rcases ends c rfl with rfl | rfl <;> rfl
      rw [List.takeWhile_cons_of_neg (by simp [stops]), List.append_nil]
  have words : text.toList = text'.toList := by
    rw [← taken h closes, same, taken h' closes']
  exact ⟨String.toList_injective words, List.append_cancel_left (words ▸ same)⟩

theorem closes_spaced (parts : List Form) {rest : List Char} (closes : Closes rest) :
    Closes (spaced parts ++ rest) := by
  cases parts with
  | nil => exact closes
  | cons f _ =>
    rintro c ⟨⟩
    exact .inl rfl

def Ending (close : List Char) : Prop :=
  close = [')'] ∨ close = [' ', '\x7d']

theorem Ending.closes {close : List Char} (h : Ending close) (rest : List Char) :
    Closes (close ++ rest) := by
  rcases h with rfl | rfl <;> rintro c ⟨⟩
  · exact .inr rfl
  · exact .inl rfl

theorem Ending.ne_spaced {close : List Char} (h : Ending close) {f : Form} (worded : f.Worded)
    {rest rest' : List Char} : close ++ rest ≠ ' ' :: (f.text ++ rest') := by
  obtain ⟨c, tail, first, noParen, noBrace⟩ := worded.first
  rw [first]
  rintro same
  rcases h with rfl | rfl <;> cases same
  exact noBrace rfl

mutual

theorem Form.text_append_inj : ∀ f g : Form, f.Worded → g.Worded → ∀ {rest rest' : List Char},
    Closes rest → Closes rest' → f.text ++ rest = g.text ++ rest' → f = g ∧ rest = rest'
  | .word text, .word text', h, h', rest, rest', closes, closes', same => by
    obtain ⟨rfl, rfl⟩ := IsWord.append_inj h h' closes closes' same
    exact ⟨rfl, rfl⟩
  | .word _, .paren _, h, _, _, _, _, _, same | .word _, .brace _, h, _, _, _, _, _, same => by
    obtain ⟨c, tail, first, outside⟩ := IsWord.first h
    rw [Form.text, first] at same
    injection same with head _
    exact (outside (by simp [head])).elim
  | .paren _, .word _, _, h', _, _, _, _, same | .brace _, .word _, _, h', _, _, _, _, same => by
    obtain ⟨c, tail, first, outside⟩ := IsWord.first h'
    rw [Form.text.eq_1, first] at same
    injection same with head _
    exact (outside (by simp [← head])).elim
  | .paren _, .brace _, _, _, _, _, _, _, same | .brace _, .paren _, _, _, _, _, _, _, same => by
    cases same
  | .paren fs, .paren gs, h, h', rest, rest', _, _, same => by
    simp only [Form.text, List.cons_append, List.append_assoc, List.cons.injEq, true_and] at same
    obtain ⟨rfl, tails⟩ := joined_append_inj fs gs h h' same
    exact ⟨rfl, tails⟩
  | .brace fs, .brace gs, h, h', rest, rest', _, _, same => by
    simp only [Form.text, List.cons_append, List.append_assoc, List.cons.injEq, true_and] at same
    obtain ⟨rfl, tails⟩ := spaced_append_inj fs gs h h' (.inr rfl) same
    exact ⟨rfl, tails⟩

theorem joined_append_inj : ∀ fs gs : List Form, WordedForms fs → WordedForms gs →
    ∀ {rest rest' : List Char}, joined fs ++ ([')'] ++ rest) = joined gs ++ ([')'] ++ rest') →
      fs = gs ∧ rest = rest'
  | [], [], _, _, _, _, same => ⟨rfl, List.append_cancel_left same⟩
  | [], g :: _, _, h', _, _, same => by
    obtain ⟨c, tail, first, notClosing, -⟩ := h'.1.first
    rw [joined, joined, first] at same
    cases same
    exact absurd rfl notClosing
  | f :: _, [], h, _, _, _, same => by
    obtain ⟨c, tail, first, notClosing, -⟩ := h.1.first
    rw [joined, joined, first] at same
    cases same
    exact absurd rfl notClosing
  | f :: fs, g :: gs, h, h', rest, rest', same => by
    have ending : Ending [')'] := .inl rfl
    simp only [joined, List.append_assoc] at same
    obtain ⟨rfl, tails⟩ := f.text_append_inj g h.1 h'.1 (closes_spaced fs (ending.closes rest))
      (closes_spaced gs (ending.closes rest')) same
    obtain ⟨rfl, rfl⟩ := spaced_append_inj fs gs h.2 h'.2 ending tails
    exact ⟨rfl, rfl⟩

theorem spaced_append_inj : ∀ fs gs : List Form, WordedForms fs → WordedForms gs →
    ∀ {close rest rest' : List Char}, Ending close →
      spaced fs ++ (close ++ rest) = spaced gs ++ (close ++ rest') → fs = gs ∧ rest = rest'
  | [], [], _, _, _, _, _, _, same => ⟨rfl, List.append_cancel_left same⟩
  | [], g :: gs, _, h', _, _, _, ending, same => by
    refine absurd same ?_
    simp only [spaced, List.nil_append, List.cons_append, List.append_assoc]
    exact ending.ne_spaced h'.1
  | f :: fs, [], h, _, _, _, _, ending, same => by
    refine absurd same.symm ?_
    simp only [spaced, List.nil_append, List.cons_append, List.append_assoc]
    exact ending.ne_spaced h.1
  | f :: fs, g :: gs, h, h', close, rest, rest', ending, same => by
    simp only [spaced, List.cons_append, List.append_assoc, List.cons.injEq, true_and] at same
    obtain ⟨rfl, tails⟩ := f.text_append_inj g h.1 h'.1 (closes_spaced fs (ending.closes rest))
      (closes_spaced gs (ending.closes rest')) same
    obtain ⟨rfl, rfl⟩ := spaced_append_inj fs gs h.2 h'.2 ending tails
    exact ⟨rfl, rfl⟩

end

theorem Form.text_injective {f g : Form} (h : f.Worded) (h' : g.Worded) (same : f.text = g.text) :
    f = g := by
  have last : Closes [] := fun c mem => by cases mem
  have whole : f.text ++ [] = g.text ++ [] := congrArg (· ++ []) same
  exact (f.text_append_inj g h h' last last whole).1

def Function.paramsForm (f : Function) : Form :=
  .paren (f.params.map fun param => .word param.lexeme)

mutual

def Expr.form : Expr → Form
  | .literal value => .word value.render
  | .grouping inner => .paren [.word "group", inner.form]
  | .unary operator operand => .paren [.word operator.lexeme, operand.form]
  | .binary left operator right | .logical left operator right =>
    .paren [.word operator.lexeme, left.form, right.form]
  | .variable _ name => .word name.lexeme
  | .assign _ name value => .paren [.word "=", .word name.lexeme, value.form]
  | .call callee _ arguments => .paren (.word "call" :: callee.form :: exprForms arguments)
  | .get object name => .paren [.word "get", object.form, .word name.lexeme]
  | .set object name value =>
    .paren [.word "set", object.form, .word name.lexeme, value.form]
  | .this _ _ => .word "this"
  | .super _ _ method => .paren [.word "super", .word method.lexeme]
  | .function f => .paren [.word "fun", f.paramsForm]

def exprForms : List Expr → List Form
  | [] => []
  | e :: rest => e.form :: exprForms rest

end

mutual

def Stmt.form : Stmt → Form
  | .expression e => .paren [.word ";", e.form]
  | .print e => .paren [.word "print", e.form]
  | .var name none => .paren [.word "var", .word name.lexeme]
  | .var name (some e) => .paren [.word "var", .word name.lexeme, e.form]
  | .block body => .brace (stmtForms body)
  | .conditional condition thenBranch none =>
    .paren [.word "if", condition.form, thenBranch.form]
  | .conditional condition thenBranch (some elseBranch) =>
    .paren [.word "if", condition.form, thenBranch.form, elseBranch.form]
  | .loop condition body => .paren [.word "while", condition.form, body.form]
  | .breakLoop _ => .paren [.word "break"]
  | .returnFrom _ none => .paren [.word "return"]
  | .returnFrom _ (some e) => .paren [.word "return", e.form]
  | .function f => f.form
  | .classDecl name none methods =>
    .paren (.word "class" :: .word name.lexeme :: functionForms methods)
  | .classDecl name (some superclass) methods =>
    .paren (.word "class" :: .word name.lexeme :: .word "<" :: superclass.form ::
      functionForms methods)

def stmtForms : List Stmt → List Form
  | [] => []
  | s :: rest => s.form :: stmtForms rest

def Function.form : Function → Form
  | ⟨name, params, body⟩ =>
    let f : Function := ⟨name, params, body⟩
    .paren [.word "fun", .word f.label, f.paramsForm, .brace (stmtForms body)]

def functionForms : List Function → List Form
  | [] => []
  | f :: rest => f.form :: functionForms rest

end

theorem joined_words (texts : List String) :
    joined (texts.map .word) = (String.intercalate " " texts).toList := by
  induction texts with
  | nil => rfl
  | cons text rest ih =>
    cases rest with
    | nil => simp [joined, Form.text, spaced]
    | cons next rest =>
      simp only [List.map_cons, joined] at ih
      rw [String.intercalate_cons_cons, String.toList_append, String.toList_append, ← ih]
      simp [joined, Form.text, spaced]

theorem Function.paramsForm_text (f : Function) : f.paramsForm.text = f.renderParams.toList := by
  have words := joined_words (f.params.map Token.lexeme)
  simp [paramsForm, Form.text, renderParams, ← words, Function.comp_def]

mutual

theorem Expr.form_text : ∀ e : Expr, e.form.text = e.render.toList
  | .literal _ | .variable .. | .this .. => rfl
  | .grouping e | .unary _ e | .assign _ _ e | .get e _ => by
    simp [Expr.form, Form.text, joined, spaced, Expr.render, e.form_text]
  | .binary left _ right | .logical left _ right | .set left _ right => by
    simp [Expr.form, Form.text, joined, spaced, Expr.render, left.form_text, right.form_text]
  | .call callee _ arguments => by
    simp [Expr.form, Form.text, joined, spaced, Expr.render, callee.form_text,
      exprForms_text arguments]
  | .super .. => by simp [Expr.form, Form.text, joined, spaced, Expr.render]
  | .function f => by
    simp [Expr.form, Form.text, joined, spaced, Expr.render, f.paramsForm_text]

theorem exprForms_text : ∀ es : List Expr, spaced (exprForms es) = (renderArguments es).toList
  | [] => rfl
  | e :: rest => by
    simp [exprForms, spaced, renderArguments, e.form_text, exprForms_text rest]

end

mutual

theorem Stmt.form_text : ∀ s : Stmt, s.form.text = s.render.toList
  | .expression e | .print e | .var _ (some e) | .returnFrom _ (some e) => by
    simp [Stmt.form, Form.text, joined, spaced, Stmt.render, e.form_text]
  | .var _ none | .breakLoop _ | .returnFrom _ none => by
    simp [Stmt.form, Form.text, joined, spaced, Stmt.render]
  | .block body => by
    simp [Stmt.form, Form.text, Stmt.render, stmtForms_text body]
  | .conditional condition thenBranch none => by
    simp [Stmt.form, Form.text, joined, spaced, Stmt.render, condition.form_text,
      thenBranch.form_text]
  | .conditional condition thenBranch (some elseBranch) => by
    simp [Stmt.form, Form.text, joined, spaced, Stmt.render, condition.form_text,
      thenBranch.form_text, elseBranch.form_text]
  | .loop condition body => by
    simp [Stmt.form, Form.text, joined, spaced, Stmt.render, condition.form_text, body.form_text]
  | .function f => f.form_text
  | .classDecl _ none methods => by
    simp [Stmt.form, Form.text, joined, spaced, Stmt.render, functionForms_text methods]
  | .classDecl _ (some superclass) methods => by
    simp [Stmt.form, Form.text, joined, spaced, Stmt.render, superclass.form_text,
      functionForms_text methods]

theorem stmtForms_text : ∀ body : List Stmt, spaced (stmtForms body) = (renderStmts body).toList
  | [] => rfl
  | s :: rest => by simp [stmtForms, spaced, renderStmts, s.form_text, stmtForms_text rest]

theorem Function.form_text : ∀ f : Function, f.form.text = f.render.toList
  | ⟨name, params, body⟩ => by
    simp [Function.form, Form.text, joined, spaced, Function.render, Function.paramsForm_text,
      stmtForms_text body]

theorem functionForms_text :
    ∀ fs : List Function, spaced (functionForms fs) = (renderMethods fs).toList
  | [] => rfl
  | f :: rest => by
    simp [functionForms, spaced, renderMethods, f.form_text, functionForms_text rest]

end

end Quill
