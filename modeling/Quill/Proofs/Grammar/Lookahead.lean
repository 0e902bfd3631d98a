import Quill.Proofs.Grammar.Derivation
import Quill.Proofs.Grammar.Reading

set_option autoImplicit false

namespace Quill

namespace Token

theorem is_iff (t : Token) (s : Symbol) : t.is s ↔ t.kind = .symbol s := by
  unfold is
  split
  next s' h => simp [h]
  next h => simp only [Bool.false_eq_true, false_iff]; exact fun same => h s same

theorem is_unique {t : Token} {s s' : Symbol} (h : t.is s) (h' : t.is s') : s = s' := by
  rw [is_iff] at h h'
  rw [h] at h'
  cases h'
  rfl

theorem not_any_is {t : Token} {s : Symbol} {symbols : List Symbol} (h : t.is s)
    (apart : s ∉ symbols) : ¬symbols.any t.is := by
  intro any
  obtain ⟨s', mem, hit⟩ := List.any_eq_true.mp any
  exact apart (is_unique h hit ▸ mem)

end Token

theorem clear_cons {t : Token} {s : Symbol} {symbols : List Symbol} (ts : List Token) (h : t.is s)
    (apart : s ∉ symbols) : Clear symbols (t :: ts) := by
  intro u us same
  obtain ⟨rfl, -⟩ := List.cons.inj same
  exact Token.not_any_is h apart

theorem Clear.sub {symbols fewer : List Symbol} {ts : List Token} (h : Clear symbols ts)
    (sub : fewer ⊆ symbols) : Clear fewer ts := by
  intro t us same any
  obtain ⟨s, mem, hit⟩ := List.any_eq_true.mp any
  exact h t us same (List.any_eq_true.mpr ⟨s, sub mem, hit⟩)

theorem clear_nil (symbols : List Symbol) : Clear symbols [] := by
  intro t us same
  cases same

theorem Clear.next? {symbols : List Symbol} {c : Cursor} {s : Symbol} (clear : Clear symbols c.ahead)
    (next : c.next? = some s) : s ∉ symbols := by
  obtain ⟨us, ahead, hit⟩ := Cursor.ahead_of_next? next
  exact fun mem => clear _ _ ahead (List.any_eq_true.mpr ⟨s, mem, hit⟩)

theorem next?_cons {t : Token} {s : Symbol} (ht : t.is s) (ts : List Token) (last : Token)
    (reported : List Error) (lo : RefId) : Cursor.next? ⟨t :: ts, last, reported, lo⟩ = some s := by
  rcases t with ⟨kind, lexeme, line⟩
  rw [Token.is_iff] at ht
  subst ht
  rfl

def Parses {α : Type} (rule : Parser α) (ts rest : List Token) (Q : α → Prop) : Prop :=
  ∀ last reported lo, ∃ x hi,
    rule ⟨ts ++ rest, last, reported, lo⟩ = .ok x ⟨rest, last, reported, hi⟩ ∧ Q x

namespace Parses

variable {α β : Type} {rule : Parser α} {ts us rest : List Token} {P : α → Prop} {Q : β → Prop}

theorem weaken {P' : α → Prop} (h : Parses rule ts rest P) (sub : ∀ x, P x → P' x) :
    Parses rule ts rest P' := by
  intro last reported lo
  obtain ⟨x, hi, run, hx⟩ := h last reported lo
  exact ⟨x, hi, run, sub x hx⟩

theorem bind {f : α → Parser β} (first : Parses rule ts (us ++ rest) P)
    (second : ∀ x, P x → Parses (f x) us rest Q) : Parses (rule >>= f) (ts ++ us) rest Q := by
  intro last reported lo
  obtain ⟨x, mid, run, hx⟩ := first last reported lo
  obtain ⟨y, hi, run', hy⟩ := second x hx last reported mid
  refine ⟨y, hi, ?_, hy⟩
  rw [List.append_assoc, Parser.bind_ok run, run']

theorem pure {x : α} (h : P x) : Parses (Pure.pure x) [] rest P := fun _ _ lo =>
  ⟨x, lo, rfl, h⟩

theorem bind_pure {f : α → β} (first : Parses rule ts rest P) (sub : ∀ x, P x → Q (f x)) :
    Parses (rule >>= fun x => Pure.pure (f x)) ts rest Q := by
  have both : Parses _ (ts ++ []) rest Q := bind first fun x hx => pure (sub x hx)
  rwa [List.append_nil] at both

theorem map {f : α → β} (first : Parses rule ts rest P) (sub : ∀ x, P x → Q (f x)) :
    Parses (f <$> rule) ts rest Q := by
  intro last reported lo
  obtain ⟨x, hi, run, hx⟩ := first last reported lo
  refine ⟨f x, hi, ?_, sub x hx⟩
  change EStateM.map f rule _ = _
  simp only [EStateM.map, run]

theorem expected {s : Symbol} {fault : SyntaxFault} {t : Token} (ht : t.is s) :
    Parses (Parser.expect s fault) [t] rest (· = t) := by
  intro last reported lo
  refine ⟨t, lo, ?_, rfl⟩
  rw [List.singleton_append, Parser.expect_apply]
  simp only [ht, if_true]

theorem expect {s : Symbol} {fault : SyntaxFault} {t : Token} {f : Token → Parser β}
    (ht : t.is s) (later : Parses (f t) ts rest Q) :
    Parses (Parser.expect s fault >>= f) (t :: ts) rest Q := by
  change Parses _ ([t] ++ ts) rest Q
  refine bind (expected ht) ?_
  rintro _ rfl
  exact later

theorem skip {t : Token} {f : Unit → Parser β} (later : Parses (f ()) ts rest Q) :
    Parses (Parser.skip >>= f) (t :: ts) rest Q := fun last reported lo =>
  later last reported lo

theorem accepted {symbols : List Symbol} {t : Token} {f : Option Token → Parser β}
    (ht : symbols.any t.is) (later : Parses (f (some t)) ts rest Q) :
    Parses (Parser.acceptAny? symbols >>= f) (t :: ts) rest Q := by
  intro last reported lo
  obtain ⟨y, hi, run, hy⟩ := later last reported lo
  refine ⟨y, hi, ?_, hy⟩
  have taken : Parser.acceptAny? symbols ⟨t :: (ts ++ rest), last, reported, lo⟩ =
      .ok (some t) ⟨ts ++ rest, last, reported, lo⟩ := by
    simp only [Parser.acceptAny?, ht, if_true]
  rw [List.cons_append, Parser.bind_ok taken, run]

theorem passed {symbols : List Symbol} {f : Option Token → Parser β}
    (clear : Clear symbols (ts ++ rest)) (later : Parses (f none) ts rest Q) :
    Parses (Parser.acceptAny? symbols >>= f) ts rest Q := by
  intro last reported lo
  obtain ⟨y, hi, run, hy⟩ := later last reported lo
  refine ⟨y, hi, ?_, hy⟩
  have none : Parser.acceptAny? symbols ⟨ts ++ rest, last, reported, lo⟩ =
      .ok none ⟨ts ++ rest, last, reported, lo⟩ := by
    unfold Parser.acceptAny?
    split
    next => rfl
    next t us ahead => simp only [clear t us ahead]; rfl
  rw [Parser.bind_ok none, run]

theorem met {s : Symbol} {t : Token} {f : Bool → Parser β} (ht : t.is s)
    (later : Parses (f true) [] (t :: rest) Q) :
    Parses (Parser.check s >>= f) [] (t :: rest) Q := by
  intro last reported lo
  obtain ⟨y, hi, run, hy⟩ := later last reported lo
  refine ⟨y, hi, ?_, hy⟩
  have seen : Parser.check s ⟨t :: rest, last, reported, lo⟩ =
      .ok true ⟨t :: rest, last, reported, lo⟩ := by
    simp only [Parser.check, ht]
  rw [List.nil_append, Parser.bind_ok seen]
  exact run

theorem unmet {s : Symbol} {f : Bool → Parser β} (clear : Clear [s] (ts ++ rest))
    (later : Parses (f false) ts rest Q) : Parses (Parser.check s >>= f) ts rest Q := by
  intro last reported lo
  obtain ⟨y, hi, run, hy⟩ := later last reported lo
  refine ⟨y, hi, ?_, hy⟩
  have no : Parser.check s ⟨ts ++ rest, last, reported, lo⟩ =
      .ok false ⟨ts ++ rest, last, reported, lo⟩ := by
    unfold Parser.check
    split
    next t us ahead =>
      have := clear t us ahead
      simp only [List.any_cons, List.any_nil, Bool.or_false, Bool.not_eq_true] at this
      rw [this]
    next => rfl
  rw [Parser.bind_ok no, run]

theorem peeked {s : Symbol} {t : Token} {f : Option Symbol → Parser β} (ht : t.is s)
    (later : Parses (f (some s)) (t :: ts) rest Q) :
    Parses (Parser.peek? >>= f) (t :: ts) rest Q := by
  intro last reported lo
  rw [Parser.peek?_bind, List.cons_append, next?_cons ht]
  exact later last reported lo

theorem unpeeked {symbols : List Symbol} {f : Option Symbol → Parser β}
    (clear : Clear symbols (ts ++ rest))
    (later : ∀ next : Option Symbol, (∀ s ∈ symbols, next ≠ some s) → Parses (f next) ts rest Q) :
    Parses (Parser.peek? >>= f) ts rest Q := by
  intro last reported lo
  rw [Parser.peek?_bind]
  refine later _ (fun s mem next => ?_) last reported lo
  exact Clear.next? clear next mem

end Parses

def operandStarts : List Symbol :=
  [.falseKw, .trueKw, .nilKw, .thisKw, .identifier, .superKw, .funKw, .leftParen]

def expressionStarts : List Symbol :=
  .bang :: .minus :: operandStarts

def statementStarts : List Symbol :=
  [.leftBrace, .printKw, .breakKw, .returnKw, .whileKw, .ifKw, .forKw] ++ expressionStarts

def declarationStarts : List Symbol :=
  [.classKw, .funKw, .varKw] ++ statementStarts

def Begins (symbols : List Symbol) (ts : List Token) : Prop :=
  ∃ t us, ts = t :: us ∧ ∀ s, t.is s → s ∈ symbols

namespace Begins

variable {symbols more : List Symbol} {ts : List Token}

theorem append (h : Begins symbols ts) (us : List Token) : Begins symbols (ts ++ us) := by
  obtain ⟨t, vs, rfl, first⟩ := h
  exact ⟨t, vs ++ us, rfl, first⟩

theorem sub (h : Begins symbols ts) (sub : symbols ⊆ more) : Begins more ts := by
  obtain ⟨t, us, rfl, first⟩ := h
  exact ⟨t, us, rfl, fun s hit => sub (first s hit)⟩

theorem cons {t : Token} {s : Symbol} (ht : t.is s) (mem : s ∈ symbols) (ts : List Token) :
    Begins symbols (t :: ts) :=
  ⟨t, ts, rfl, fun _ hit => Token.is_unique ht hit ▸ mem⟩

theorem ne_nil (h : Begins symbols ts) : ts ≠ [] := by
  obtain ⟨t, us, rfl, -⟩ := h
  exact List.cons_ne_nil t us

theorem clear (h : Begins symbols ts) (apart : ∀ s ∈ symbols, s ∉ more) (us : List Token) :
    Clear more (ts ++ us) := by
  obtain ⟨t, vs, rfl, first⟩ := h
  intro u ws same any
  obtain ⟨rfl, -⟩ := List.cons.inj same
  obtain ⟨s, mem, hit⟩ := List.any_eq_true.mp any
  exact apart s (first s hit) mem

end Begins

def Heads (s : Symbol) (ts : List Token) : Prop :=
  ∃ t us, ts = t :: us ∧ t.is s

theorem Heads.clear {s : Symbol} {symbols : List Symbol} {ts : List Token} (h : Heads s ts)
    (apart : s ∉ symbols) : Clear symbols ts := by
  obtain ⟨t, us, rfl, ht⟩ := h
  exact clear_cons us ht apart

theorem Heads.begins {s : Symbol} {symbols : List Symbol} {ts : List Token} (h : Heads s ts)
    (mem : s ∈ symbols) : Begins symbols ts := by
  obtain ⟨t, us, rfl, ht⟩ := h
  exact .cons ht mem us

def Phrase.Begun : Phrase → List Token → Prop
  | .declarations, ts => ts = [] ∨ Begins declarationStarts ts
  | .declaration _, ts => Begins declarationStarts ts
  | .statement _, ts => Begins statementStarts ts ∧ ∀ rest, Grammar.startsFunction (ts ++ rest) = false
  | .exprStmt, ts | .expression, ts | .chain _, ts | .unary, ts =>
    Begins expressionStarts ts ∧ ∀ rest, Grammar.startsFunction (ts ++ rest) = false
  | .call, ts | .primary, ts =>
    Begins operandStarts ts ∧ ∀ rest, Grammar.startsFunction (ts ++ rest) = false
  | .expressions, ts => Begins expressionStarts ts
  | .function, ts => Heads .identifier ts
  | .names, ts => Begins [.identifier] ts
  | _, _ => True

theorem startsFunction_of_is {t : Token} {s : Symbol} (ht : t.is s) (apart : s ≠ .funKw)
    (ts : List Token) : Grammar.startsFunction (t :: ts) = false := by
  cases ts with
  | nil => rfl
  | cons name ts =>
    have other : t.is .funKw = false := by
      rw [Bool.eq_false_iff]
      exact fun hit => apart (Token.is_unique ht hit)
    simp [Grammar.startsFunction, other]

theorem startsFunction_append {ts : List Token}
    (h : ∀ rest, Grammar.startsFunction (ts ++ rest) = false) (us rest : List Token) :
    Grammar.startsFunction (ts ++ us ++ rest) = false := by
  rw [List.append_assoc]
  exact h _

theorem begun_cons {t : Token} {s : Symbol} {symbols : List Symbol} (ht : t.is s)
    (mem : s ∈ symbols) (apart : s ≠ .funKw) (ts : List Token) :
    Begins symbols (t :: ts) ∧ ∀ rest, Grammar.startsFunction (t :: ts ++ rest) = false :=
  ⟨.cons ht mem ts, fun _ => startsFunction_of_is ht apart _⟩

theorem begun_literal {t : Token} {symbols : List Symbol} (literal : ∀ s, t.kind ≠ .symbol s) :
    Begins symbols [t] ∧ ∀ rest, Grammar.startsFunction ([t] ++ rest) = false := by
  have no (s : Symbol) : ¬t.is s := fun hit => literal s ((Token.is_iff t s).mp hit)
  refine ⟨⟨t, [], rfl, fun s hit => absurd hit (no s)⟩, fun rest => ?_⟩
  cases rest with
  | nil => rfl
  | cons name rest => simp [Grammar.startsFunction, no]

theorem Derives.begun {p : Phrase} {ts : List Token} {x : p.Tree} (h : Derives p ts x) :
    p.Begun ts := by
  induction h with
  | noDeclarations => exact .inl rfl
  | moreDeclarations _ _ ih => exact .inr (ih.append _)
  | noSuperclass | superclass | noFunctions | moreFunctions | noParameters | parameters | bareVar
  | varWith | block | startVar | startExpr | noStart | absent | present | noArguments | arguments =>
    trivial
  | classDecl hk => exact .cons hk (by decide) _
  | funDecl hk => exact .cons hk (by decide) _
  | varDecl h =>
    cases h with
    | bareVar hk => exact .cons hk (by decide) _
    | varWith hk => exact .cons hk (by decide) _
  | statement _ ih => exact ih.1.sub (by decide)
  | function hn => exact ⟨_, _, rfl, hn⟩
  | lastName hn => exact .cons hn (by decide) _
  | moreNames hn => exact .cons hn (by decide) _
  | exprStmt _ ih => exact ⟨ih.1.sub (by decide), ih.2⟩
  | expressionStatement _ _ ih => exact ⟨ih.1.append _, startsFunction_append ih.2 _⟩
  | blockStmt h =>
    cases h with
    | block ho => exact begun_cons ho (by decide) (by decide) _
  | printStmt hk | breakStmt hk | returnStmt hk | whileStmt hk | ifStmt hk | ifElseStmt hk
  | forStmt hk => exact begun_cons hk (by decide) (by decide) _
  | assign hn => exact begun_cons hn (by decide) (by decide) _
  | set _ _ _ _ _ ih =>
    exact ⟨(ih.1.append _).sub (by decide), startsFunction_append ih.2 _⟩
  | operators _ ih | operand _ ih | tightest _ ih => exact ih
  | link _ _ _ ih => exact ⟨ih.1.append _, startsFunction_append ih.2 _⟩
  | prefixed hop =>
    simp only [List.any_cons, List.any_nil, Bool.or_false, Bool.or_eq_true] at hop
    rcases hop with hop | hop
    · exact begun_cons hop (by decide) (by decide) _
    · exact begun_cons hop (by decide) (by decide) _
  | unprefixed _ ih => exact ⟨ih.1.sub (by decide), ih.2⟩
  | callee _ ih => exact ih
  | call _ _ _ _ ih | get _ _ _ ih => exact ⟨ih.1.append _, startsFunction_append ih.2 _⟩
  | lastExpression _ ih => exact ih.1
  | moreExpressions _ _ _ ih => exact ih.1.append _
  | number h | string h => exact begun_literal fun s => by rw [h]; exact Kind.noConfusion
  | trueLit ht | falseLit ht | nilLit ht | this ht | reference ht =>
    exact begun_cons ht (by decide) (by decide) _
  | grouping ho => exact begun_cons ho (by decide) (by decide) _
  | super hk => exact begun_cons hk (by decide) (by decide) _
  | anonymous hk ho =>
    -- A parenthesis after the keyword keeps it apart from a declaration, which has a name there.
    refine ⟨.cons hk (by decide) _, fun rest => ?_⟩
    have paren : Token.is _ .identifier = false :=
      Bool.eq_false_iff.mpr fun hit => by cases Token.is_unique ho hit
    simp [Grammar.startsFunction, paren]

end Quill
