import Quill.Proofs.Grammar.Derivation
import Quill.Proofs.Grammar.Reading
import Quill.Tree.References

set_option autoImplicit false

namespace Quill

def Phrase.references : (p : Phrase) → p.Tree → List Reference
  | .declarations, body => stmtReferences body
  | .declaration _, s => s.references
  | .varDecl, s => s.references
  | .superclass, none => []
  | .superclass, some e => e.references
  | .function, f => f.references
  | .functions, fs => functionReferences fs
  | .parameters, _ => []
  | .names, _ => []
  | .block, body => stmtReferences body
  | .statement _, s => s.references
  | .exprStmt, s => s.references
  | .forStart, none => []
  | .forStart, some s => s.references
  | .optional, none => []
  | .optional, some e => e.references
  | .expression, e => e.references
  | .chain _, e => e.references
  | .unary, e => e.references
  | .call, e => e.references
  | .arguments, es => exprReferences es
  | .expressions, es => exprReferences es
  | .primary, e => e.references

def Phrase.reading (p : Phrase) : Reading p.Tree := fun ts _ lo hi x =>
  Derives p ts x ∧ Numbered lo hi ((p.references x).map (·.id))

def Phrase.further (p : Phrase) (x : p.Tree) : Reading p.Tree := fun ts _ lo hi y =>
  (∀ before, Derives p before x → Derives p (before ++ ts) y) ∧
    ∃ ids, (p.references y).map (·.id) = (p.references x).map (·.id) ++ ids ∧ Numbered lo hi ids

namespace Phrase

variable {p : Phrase} {x y z : p.Tree} {ts us rest rest' : List Token} {lo mid hi : RefId}

theorem further_refl (p : Phrase) (x : p.Tree) (rest : List Token) (lo : RefId) :
    p.further x [] rest lo lo x :=
  ⟨fun before h => by simpa using h, [], by simp, .nil lo⟩

theorem further_trans (first : p.further x ts rest' lo mid y)
    (second : p.further y us rest mid hi z) : p.further x (ts ++ us) rest lo hi z := by
  obtain ⟨derives, ids, same, numbered⟩ := first
  obtain ⟨derives', ids', same', numbered'⟩ := second
  refine ⟨fun before h => ?_, ids ++ ids', ?_, numbered.append numbered'⟩
  · simpa using derives' _ (derives before h)
  · rw [same', same, List.append_assoc]

theorem reading_further (first : p.reading ts rest' lo mid x)
    (second : p.further x us rest mid hi y) : p.reading (ts ++ us) rest lo hi y := by
  obtain ⟨derives, numbered⟩ := first
  obtain ⟨derives', ids, same, numbered'⟩ := second
  exact ⟨derives' ts derives, same ▸ numbered.append numbered'⟩

end Phrase

def statementReading : Reading Stmt := fun ts rest lo hi s =>
  ∃ d, (Phrase.statement d).reading ts rest lo hi s ∧ (d = true → Clear [.elseKw] rest)

def declarationReading : Reading (Option Stmt) := fun ts rest lo hi found =>
  ∃ s d, found = some s ∧ ts ≠ [] ∧ (Phrase.declaration d).reading ts rest lo hi s

namespace Grammar

open Quill.Parser

structure Sound (n : Nat) (g : Grammar) : Prop where
  size : n ≤ g.size
  expression : Reads n 1 g.expression Phrase.expression.reading
  statement : Reads n 1 g.statement statementReading
  declaration : Reads n 0 g.declaration declarationReading

section Lists

variable {α : Type} {item : Parser α} {R : Reading α} {L : Reading (List α)}

theorem items_round_reads {tooMany : SyntaxFault} {k n : Nat} {found : List α}
    (last : ∀ ts rest lo hi x, R ts rest lo hi x → L ts rest lo hi [x])
    (more : ∀ ts us rest rest' lo mid hi x xs comma, R ts rest' lo mid x → comma.is .comma →
      L us rest mid hi xs → L (ts ++ comma :: us) rest lo hi (x :: xs))
    (hitem : Reads n 1 item R)
    (others : ∀ x, 0 < n - 1 →
      Reads (n - 1 - 1) 0 (items tooMany item k (x :: found)) fun ts rest lo hi ys =>
        ∃ xs, ys = (x :: found).reverse ++ xs ∧ (x :: found).length + xs.length ≤ maxItems ∧
          L ts rest lo hi xs) :
    Reads n 1
      (item >>= fun x => accept? .comma >>= fun
        | some _ => items tooMany item k (x :: found)
        | none => pure (x :: found).reverse)
      fun ts rest lo hi ys => found.length < maxItems →
        ∃ xs, ys = found.reverse ++ xs ∧ found.length + xs.length ≤ maxItems ∧
          L ts rest lo hi xs := by
  refine (hitem.bind fun x => Reads.acceptAny (k := 0) (fun _ some => others x some)
    (Reads.pure (x :: found).reverse)).weaken ?_
  rintro _ rest lo hi ys ⟨ts, _, mid, x, rfl, hx, h⟩ room
  obtain ⟨comma, us, rfl, hc, xs, rfl, bound, hxs⟩ | ⟨-, rfl, rfl, rfl⟩ := h
  · refine ⟨x :: xs, by simp, by simp only [List.length_cons] at bound ⊢; omega, ?_⟩
    exact more _ _ _ _ _ _ _ _ _ _ hx (by simpa using hc) hxs
  · refine ⟨[x], by simp, by simp only [List.length_singleton]; omega, ?_⟩
    simpa using last _ _ _ _ _ hx

theorem items_reads (tooMany : SyntaxFault)
    (last : ∀ ts rest lo hi x, R ts rest lo hi x → L ts rest lo hi [x])
    (more : ∀ ts us rest rest' lo mid hi x xs comma, R ts rest' lo mid x → comma.is .comma →
      L us rest mid hi xs → L (ts ++ comma :: us) rest lo hi (x :: xs)) :
    ∀ (k n : Nat) (found : List α), Reads n 1 item R → n ≤ k → 0 < k →
      Reads n 1 (items tooMany item k found) fun ts rest lo hi ys =>
        ∃ xs, ys = found.reverse ++ xs ∧ found.length + xs.length ≤ maxItems ∧
          L ts rest lo hi xs := by
  intro k
  induction k with
  | zero => intro n found hitem hn hk; omega
  | succ k ih =>
    intro n found hitem hn hk
    have round := items_round_reads last more hitem fun x some =>
      (ih (n - 1 - 1) (x :: found) (hitem.le (by omega) (Nat.le_refl _)) (by omega) (by omega)).le
        (Nat.le_refl _) (Nat.zero_le _)
    unfold items
    by_cases full : maxItems ≤ found.length
    -- Too many items are reported, and after a report nothing has to be shown.
    · simp only [full, if_true]
      refine ((Reads.reportHere n tooMany).bind fun _ => round).mono (Nat.le_refl _) (by omega) ?_
      rintro _ _ _ _ _ ⟨a, b, mid, x, rfl, absurd, -⟩
      exact absurd.elim
    · simp only [full]
      refine round.weaken ?_
      intro ts rest lo hi ys h
      exact h (by omega)

theorem itemsBeforeParen_reads {n : Nat} (g : Grammar) (tooMany : SyntaxFault) (hg : n ≤ g.size)
    (last : ∀ ts rest lo hi x, R ts rest lo hi x → L ts rest lo hi [x])
    (more : ∀ ts us rest rest' lo mid hi x xs comma, R ts rest' lo mid x → comma.is .comma →
      L us rest mid hi xs → L (ts ++ comma :: us) rest lo hi (x :: xs))
    (hitem : Reads n 1 item R) :
    Reads n 0 (itemsBeforeParen g tooMany item) fun ts rest lo hi xs =>
      (ts = [] ∧ hi = lo ∧ xs = []) ∨ (xs.length ≤ maxItems ∧ L ts rest lo hi xs) := by
  refine Reads.check ((Reads.pure []).weaken ?_)
    ((items_reads tooMany last more g.rounds n [] hitem ?_ ?_).mono (Nat.le_refl _) (by omega) ?_)
  · rintro ts rest lo hi xs ⟨rfl, rfl, rfl⟩
    exact .inl ⟨rfl, rfl, rfl⟩
  · unfold rounds
    omega
  · unfold rounds
    omega
  · rintro ts rest lo hi ys ⟨xs, rfl, bound, h⟩
    exact .inr ⟨by simpa using bound, by simpa using h⟩

end Lists

theorem parameters_reads (n : Nat) (g : Grammar) (hg : n ≤ g.size) :
    Reads n 0 (g.itemsBeforeParen .tooManyParameters (expectName .parameter))
      Phrase.parameters.reading := by
  refine (itemsBeforeParen_reads (L := Phrase.names.reading) g _ hg ?_ ?_
    (Reads.expect n .identifier _)).weaken ?_
  · rintro _ rest lo _ name ⟨rfl, rfl, hn⟩
    exact ⟨.lastName hn, .nil _⟩
  · rintro _ us rest rest' lo _ hi name names comma ⟨rfl, rfl, hn⟩ hc ⟨derives, numbered⟩
    exact ⟨.moreNames hn hc derives, numbered⟩
  · rintro ts rest lo hi names (⟨rfl, rfl, rfl⟩ | ⟨bound, derives, numbered⟩)
    · exact ⟨.noParameters, .nil _⟩
    · exact ⟨.parameters derives bound, numbered⟩

theorem arguments_reads {n : Nat} {g : Grammar} (hg : Sound n g) :
    Reads n 0 (g.itemsBeforeParen .tooManyArguments g.expression) Phrase.arguments.reading := by
  refine (itemsBeforeParen_reads (L := Phrase.expressions.reading) g _ hg.size ?_ ?_
    hg.expression).weaken ?_
  · rintro ts rest lo hi e ⟨derives, numbered⟩
    exact ⟨.lastExpression derives, by simpa [Phrase.references, exprReferences] using numbered⟩
  · rintro ts us rest rest' lo mid hi e es comma ⟨derives, numbered⟩ hc ⟨derivesRest, numberedRest⟩
    refine ⟨.moreExpressions derives hc derivesRest, ?_⟩
    simpa [Phrase.references, exprReferences] using numbered.append numberedRest
  · rintro ts rest lo hi es (⟨rfl, rfl, rfl⟩ | ⟨bound, derives, numbered⟩)
    · exact ⟨.noArguments, .nil _⟩
    · exact ⟨.arguments derives bound, numbered⟩

section Declarations

variable {n : Nat} {stop : Parser Bool} {declaration : Parser (Option Stmt)}

theorem declarationsUntil_round_reads {Stops : List Token → Prop} {k : Nat} {found : List Stmt}
    (hdecl : Reads n 0 declaration declarationReading)
    (others : ∀ found, Reads n 0 (declarationsUntil stop declaration k found)
      fun ts rest lo hi ys => ∃ body, ys = found.reverse ++ body ∧
        Phrase.declarations.reading ts rest lo hi body ∧ (k ≤ ts.length ∨ Stops rest)) (b : Bool) :
    Reads n 0
      (if b = true then pure found.reverse
        else declaration >>= fun
          | some s => declarationsUntil stop declaration k (s :: found)
          | none => declarationsUntil stop declaration k found)
      fun ts rest lo hi ys => (b = true → Stops (ts ++ rest)) →
        ∃ body, ys = found.reverse ++ body ∧ Phrase.declarations.reading ts rest lo hi body ∧
          (k + 1 ≤ ts.length ∨ Stops rest) := by
  cases b with
  | true =>
    refine (Reads.pure found.reverse).weaken ?_
    rintro ts rest lo hi ys ⟨rfl, rfl, rfl⟩ stops
    exact ⟨[], by simp, ⟨.noDeclarations, .nil _⟩, .inr (stops rfl)⟩
  | false =>
    have later (o : Option Stmt) : Reads n 0
        (match o with
          | some s => declarationsUntil stop declaration k (s :: found)
          | none => declarationsUntil stop declaration k found)
        fun ts rest lo hi ys => ∀ s, o = some s →
          ∃ body, ys = (s :: found).reverse ++ body ∧
            Phrase.declarations.reading ts rest lo hi body ∧ (k ≤ ts.length ∨ Stops rest) := by
      cases o with
      | none => exact (others found).weaken fun _ _ _ _ _ _ s absurd => by cases absurd
      | some s =>
        refine (others (s :: found)).weaken fun ts rest lo hi ys h s' same => ?_
        cases same
        exact h
    -- A declaration takes at least one token, so the rounds left are enough for what follows.
    refine (hdecl.bind later).weaken ?_
    rintro _ rest lo hi ys ⟨ts, us, mid, _, rfl, ⟨s, d, rfl, some, derives, numbered⟩, h⟩ -
    obtain ⟨body, rfl, ⟨derivesRest, numberedRest⟩, enough⟩ := h s rfl
    refine ⟨s :: body, by simp, ⟨.moreDeclarations derives derivesRest, ?_⟩, ?_⟩
    · simpa [Phrase.references, stmtReferences] using numbered.append numberedRest
    · have := List.length_pos_iff.mpr some
      refine enough.imp_left fun h => ?_
      rw [List.length_append]
      omega

theorem declarationsUntil_reads (Stops : List Token → Prop)
    (hstop : Reads n 0 stop fun ts rest lo hi b => ts = [] ∧ hi = lo ∧ (b = true → Stops rest))
    (hdecl : Reads n 0 declaration declarationReading) :
    ∀ (k : Nat) (found : List Stmt),
      Reads n 0 (declarationsUntil stop declaration k found) fun ts rest lo hi ys =>
        ∃ body, ys = found.reverse ++ body ∧ Phrase.declarations.reading ts rest lo hi body ∧
          (k ≤ ts.length ∨ Stops rest) := by
  intro k
  induction k with
  | zero =>
    intro found
    refine (Reads.pure found.reverse).weaken ?_
    rintro ts rest lo hi ys ⟨rfl, rfl, rfl⟩
    exact ⟨[], by simp, ⟨.noDeclarations, .nil _⟩, .inl (Nat.zero_le _)⟩
  | succ k ih =>
    intro found
    refine (hstop.bind fun b => declarationsUntil_round_reads hdecl ih b).weaken ?_
    rintro _ rest lo hi ys ⟨_, ts, _, b, rfl, ⟨rfl, rfl, stops⟩, h⟩
    exact h stops

end Declarations

theorem atBlockEnd_reads (n : Nat) :
    Reads n 0 atBlockEnd fun ts _ lo hi _ => ts = [] ∧ hi = lo := by
  refine Reads.check ((Reads.pure true).weaken ?_) fun c _ => ?_
  · rintro ts rest lo hi b ⟨rfl, rfl, -⟩
    exact ⟨rfl, rfl⟩
  · exact ⟨Nat.le_refl _, fun clean => ⟨clean, [], rfl, rfl, rfl⟩⟩

def blockReading : Reading (List Stmt) := fun ts rest lo hi body =>
  ∀ opening : Token, opening.is .leftBrace → Phrase.block.reading (opening :: ts) rest lo hi body

theorem block_reads {n : Nat} {g : Grammar} (hg : Sound n g) : Reads n 1 g.block blockReading := by
  have hstop : Reads n 0 atBlockEnd fun ts _ lo hi b =>
      ts = [] ∧ hi = lo ∧ (b = true → True) :=
    (atBlockEnd_reads n).weaken fun _ _ _ _ _ h => ⟨h.1, h.2, fun _ => trivial⟩
  refine (((declarationsUntil_reads (fun _ => True) hstop hg.declaration g.rounds []).bind
    fun body => (Reads.expect _ .rightBrace _).bind fun _ => Reads.pure body)).weaken ?_
  rintro _ rest lo hi _
    ⟨ts, _, mid, _, rfl, ⟨body, rfl, ⟨derives, numbered⟩, -⟩, _, _, _, closing, rfl,
      ⟨rfl, rfl, hc⟩, rfl, rfl, rfl⟩ opening ho
  exact ⟨.block ho derives hc, numbered⟩

def functionReading (name : Option Token) : Reading Function := fun ts _ lo hi f =>
  ∃ params body us vs closing, ts = us ++ closing :: vs ∧ f = ⟨name, params, body⟩ ∧
    Derives .parameters us params ∧ closing.is .rightParen ∧ Derives .block vs body ∧
    Numbered lo hi ((stmtReferences body).map (·.id))

theorem functionRest_reads {n : Nat} {g : Grammar} (hg : Sound n g) (name : Option Token)
    (routine : Routine) : Reads n 3 (functionRest g name routine) (functionReading name) := by
  refine ((parameters_reads n g hg.size).bind fun params =>
    (Reads.expect _ .rightParen _).bind fun _ => (Reads.expect _ .leftBrace _).bind fun _ =>
      ((block_reads hg).le (by omega) (Nat.le_refl _)).bind fun body =>
        Reads.pure (⟨name, params, body⟩ : Function)).weaken ?_
  rintro _ rest lo hi _
    ⟨us, _, _, params, rfl, ⟨parameters, _⟩, _, _, _, closing, rfl, ⟨rfl, rfl, hc⟩, _, _, _, opening,
      rfl, ⟨rfl, rfl, ho⟩, vs, _, _, body, rfl, hb, rfl, rfl, rfl⟩
  obtain ⟨derives, numbered⟩ := hb opening ho
  exact ⟨params, body, us, opening :: vs, closing, by simp, rfl, parameters, hc, derives,
    Numbered.append ‹Numbered _ _ _› numbered⟩

section Expressions

variable {n : Nat} {g : Grammar}

theorem superAccess_reads (n : Nat) (keyword : Token) (hk : keyword.is .superKw) :
    Reads n 2 (superAccess keyword) fun ts => Phrase.primary.reading (keyword :: ts) := by
  refine ((Reads.expect _ .dot _).bind fun _ => (Reads.expect _ .identifier _).bind fun method =>
    (Reads.freshId _).bind fun id => Reads.pure (Expr.super id keyword method)).weaken ?_
  rintro _ rest lo hi _
    ⟨_, _, _, dot, rfl, ⟨rfl, rfl, hd⟩, _, _, _, method, rfl, ⟨rfl, rfl, hm⟩, _, _, _, id, rfl,
      ⟨rfl, rfl, rfl⟩, rfl, rfl, rfl⟩
  exact ⟨.super hk hd hm, .one _⟩

theorem anonymousFunction_reads (hg : Sound n g) (keyword : Token) (hk : keyword.is .funKw) :
    Reads n 4 (anonymousFunction g) fun ts => Phrase.primary.reading (keyword :: ts) := by
  refine ((Reads.expect _ .leftParen _).bind fun _ =>
    ((functionRest_reads hg none .anonymous).le (by omega) (Nat.le_refl _)).bind fun f =>
      Reads.pure (Expr.function f)).weaken ?_
  rintro _ rest lo hi _
    ⟨_, _, _, opening, rfl, ⟨rfl, rfl, ho⟩, _, _, _, _, rfl,
      ⟨params, body, us, vs, closing, rfl, rfl, parameters, hc, block, numbered⟩, rfl, rfl, rfl⟩
  refine ⟨?_, numbered⟩
  simpa using Derives.anonymous hk ho parameters hc block

theorem groupingRest_reads (hg : Sound n g) (opening : Token) (ho : opening.is .leftParen) :
    Reads n 2 (groupingRest g) fun ts => Phrase.primary.reading (opening :: ts) := by
  refine (hg.expression.bind fun inner => (Reads.expect _ .rightParen _).bind fun _ =>
    Reads.pure (Expr.grouping inner)).weaken ?_
  rintro _ rest lo hi _
    ⟨ts, _, _, inner, rfl, ⟨derives, numbered⟩, _, _, _, closing, rfl, ⟨rfl, rfl, hc⟩, rfl, rfl, rfl⟩
  exact ⟨.grouping ho derives hc, numbered⟩

theorem primary_reads (hg : Sound n g) : Reads (n + 1) 1 (primary g) Phrase.primary.reading := by
  intro c hc
  rcases c with ⟨_ | ⟨t, us⟩, last, reported, nextId⟩
  · exact Nat.le_refl _
  refine ReadsFrom.stay (q := primaryFrom g t) rfl ?_ fun _ _ _ _ _ _ h => h
  have behind {k : Nat} {q : Parser Expr} (hq : Reads n k q fun ts => Phrase.primary.reading (t :: ts)) :
      ReadsFrom ⟨t :: us, last, reported, nextId⟩ 1 (skip *> q) Phrase.primary.reading :=
    ReadsFrom.skip (f := fun _ => q) rfl hc (by omega) hq fun _ _ _ _ _ h => h
  have literal (value : Literal) (derives : Derives .primary [t] (.literal value)) :
      ReadsFrom ⟨t :: us, last, reported, nextId⟩ 1 (skip *> pure (.literal value))
        Phrase.primary.reading := by
    refine behind ((Reads.pure _).weaken ?_)
    rintro ts rest lo hi _ ⟨rfl, rfl, rfl⟩
    exact ⟨derives, .nil _⟩
  have reference (node : RefId → Expr) (derives : ∀ id, Derives .primary [t] (node id))
      (own : ∀ id, (node id).references.map (·.id) = [id]) :
      ReadsFrom ⟨t :: us, last, reported, nextId⟩ 1 (skip *> node <$> freshId)
        Phrase.primary.reading := by
    refine behind ((Reads.freshId n).map ?_)
    rintro ts rest lo hi _ ⟨rfl, rfl, rfl⟩
    exact ⟨derives _, by simp only [Phrase.references, own]; exact .one _⟩
  unfold primaryFrom
  split
  next value h => exact literal _ (.number h)
  next value h => exact literal _ (.string h)
  next h => exact literal _ (.falseLit (by simp [Token.is, h]))
  next h => exact literal _ (.trueLit (by simp [Token.is, h]))
  next h => exact literal _ (.nilLit (by simp [Token.is, h]))
  next h => exact reference _ (fun id => .this (by simp [Token.is, h])) fun id => rfl
  next h => exact reference _ (fun id => .reference (by simp [Token.is, h])) fun id => rfl
  next h => exact behind (superAccess_reads n t (by simp [Token.is, h]))
  next h => exact behind (anonymousFunction_reads hg t (by simp [Token.is, h]))
  next h => exact behind (groupingRest_reads hg t (by simp [Token.is, h]))
  next => exact Nat.le_refl _

theorem callRest_reads (hg : Sound n g) (callee : Expr) (opening : Token)
    (ho : opening.is .leftParen) :
    Reads n 1 (callRest g callee) fun ts => Phrase.call.further callee (opening :: ts) := by
  refine ((arguments_reads hg).bind fun arguments => (Reads.expect _ .rightParen _).bind fun paren =>
    Reads.pure (Expr.call callee paren arguments)).weaken ?_
  rintro _ rest lo hi _
    ⟨us, _, _, arguments, rfl, ⟨derives, numbered⟩, _, _, _, closing, rfl, ⟨rfl, rfl, hc⟩, rfl, rfl,
      rfl⟩
  refine ⟨fun before h => .call h ho derives hc, _, ?_, numbered⟩
  simp [Phrase.references, Expr.references]

theorem property_reads (n : Nat) (object : Expr) (dot : Token) (hd : dot.is .dot) :
    Reads n 1 (expectName .property) fun ts rest lo hi name =>
      Phrase.call.further object (dot :: ts) rest lo hi (.get object name) := by
  refine (Reads.expect n .identifier _).weaken ?_
  rintro ts rest lo hi name ⟨rfl, rfl, hn⟩
  exact ⟨fun before h => .get h hd hn, [], by simp [Phrase.references, Expr.references], .nil _⟩

theorem suffixes_reads (hg : Sound n g) :
    ∀ (k : Nat) (e : Expr), Reads (n + 1) 0 (suffixes g k e) (Phrase.call.further e) := by
  intro k
  induction k with
  | zero =>
    intro e
    refine (Reads.pure e).weaken ?_
    rintro ts rest lo hi _ ⟨rfl, rfl, rfl⟩
    exact Phrase.further_refl ..
  | succ k ih =>
    intro e
    refine Reads.peek fun c hc => ?_
    have suffix {α : Type} {q : Parser α} {s : Symbol} (node : α → Expr) (next : c.next? = some s)
        (hq : ∀ t : Token, t.is s → Reads n 1 q fun ts rest lo hi x =>
          Phrase.call.further e (t :: ts) rest lo hi (node x)) :
        ReadsFrom c 0 (skip >>= fun _ => q >>= fun x => suffixes g k (node x))
          (Phrase.call.further e) := by
      obtain ⟨us, ahead, hit⟩ := Cursor.ahead_of_next? next
      refine ReadsFrom.skip ahead hc (by omega)
        ((hq _ hit).bind (j := 0) fun x => (ih (node x)).le (by omega) (Nat.le_refl _)) ?_
      rintro _ rest lo hi e' ⟨a, b, mid, x, rfl, first, second⟩
      exact Phrase.further_trans first second
    split
    next next => exact suffix (fun e' => e') next fun t ht => callRest_reads hg e t ht
    next next => exact suffix (Expr.get e) next fun t ht => property_reads n e t ht
    next =>
      refine ((Reads.pure e).weaken ?_) c hc
      rintro ts rest lo hi _ ⟨rfl, rfl, rfl⟩
      exact Phrase.further_refl ..

theorem call_reads (hg : Sound n g) : Reads (n + 1) 1 (call g) Phrase.call.reading := by
  refine ((primary_reads hg).bind (j := 0) fun e =>
    (suffixes_reads hg g.rounds e).le (by omega) (Nat.le_refl _)).weaken ?_
  rintro _ rest lo hi e ⟨a, b, mid, e', rfl, ⟨derives, numbered⟩, h⟩
  have callee : Phrase.call.reading a (b ++ rest) lo mid e' := ⟨.callee derives, numbered⟩
  exact Phrase.reading_further callee h

theorem unary_reads (hg : Sound n g) :
    ∀ k : Nat, Reads (n + 1) 1 (unary g k) Phrase.unary.reading := by
  intro k
  have unprefixed : Reads (n + 1) 1 (call g) Phrase.unary.reading :=
    (call_reads hg).weaken fun _ _ _ _ _ ⟨derives, numbered⟩ => ⟨.unprefixed derives, numbered⟩
  induction k with
  | zero => exact unprefixed
  | succ k ih =>
    refine (Reads.acceptAny (fun operator _ => (ih.le (by omega) (by omega)).bind (j := 0)
      fun e => Reads.pure (Expr.unary operator e)) unprefixed).weaken ?_
    rintro _ rest lo hi _
      (⟨operator, _, rfl, ho, ts, _, _, e, rfl, ⟨derives, numbered⟩, rfl, rfl, rfl⟩ | ⟨-, h⟩)
    · exact ⟨by simpa using Derives.prefixed ho derives, numbered⟩
    · exact h

def level (tier : Tier) : Level :=
  ⟨tier.symbols, tier.node⟩

def chainRule (g : Grammar) : List Tier → Parser Expr
  | [] => unary g g.rounds
  | tier :: tighter => (level tier).chain g (chainRule g tighter)

theorem operators_eq (g : Grammar) : operators g = chainRule g Tier.all := rfl

theorem references_node (tier : Tier) (left : Expr) (operator : Token) (right : Expr) :
    (tier.node left operator right).references = left.references ++ right.references := by
  cases tier <;> rfl

theorem level_rest_reads (tier : Tier) (tighter : List Tier) (operand : Parser Expr)
    (ho : Reads n 1 operand (Phrase.chain tighter).reading) :
    ∀ (k : Nat) (left : Expr),
      Reads n 0 ((level tier).rest operand k left) ((Phrase.chain (tier :: tighter)).further left) := by
  intro k
  induction k with
  | zero =>
    intro left
    refine (Reads.pure left).weaken ?_
    rintro ts rest lo hi _ ⟨rfl, rfl, rfl⟩
    exact Phrase.further_refl ..
  | succ k ih =>
    intro left
    refine (Reads.acceptAny (k := 0)
      (fun operator _ => ((ho.le (by omega) (Nat.le_refl _)).bind (j := 0) fun right =>
        (ih (tier.node left operator right)).le (by omega) (Nat.le_refl _)).le
          (Nat.le_refl _) (by omega))
      (Reads.pure left)).weaken ?_
    rintro _ rest lo hi e (⟨operator, _, rfl, hop, us, vs, mid, right, rfl, ⟨derives, numbered⟩, h⟩ |
      ⟨-, rfl, rfl, rfl⟩)
    · have link : (Phrase.chain (tier :: tighter)).further left (operator :: us) (vs ++ rest) lo mid
          (tier.node left operator right) := by
        refine ⟨fun before h => .link h hop derives, _, ?_, numbered⟩
        simp only [Phrase.references, references_node, List.map_append]
      exact Phrase.further_trans link h
    · exact Phrase.further_refl ..

theorem chainRule_reads (hg : Sound n g) :
    ∀ tiers : List Tier, Reads (n + 1) 1 (chainRule g tiers) (Phrase.chain tiers).reading := by
  intro tiers
  induction tiers with
  | nil =>
    exact (unary_reads hg g.rounds).weaken fun _ _ _ _ _ ⟨derives, numbered⟩ =>
      ⟨.tightest derives, numbered⟩
  | cons tier tighter ih =>
    refine (ih.bind (j := 0) fun left => level_rest_reads tier tighter _
      (ih.le (by omega) (Nat.le_refl _)) g.rounds left).weaken ?_
    rintro _ rest lo hi e ⟨a, b, mid, left, rfl, ⟨derives, numbered⟩, h⟩
    have operand : (Phrase.chain (tier :: tighter)).reading a (b ++ rest) lo mid left :=
      ⟨.operand derives, numbered⟩
    exact Phrase.reading_further operand h

theorem derives_call_of_chain {tiers : List Tier} {ts : List Token} {e : Expr}
    (h : Derives (.chain tiers) ts e)
    (notNode : ∀ (tier : Tier) (left : Expr) (operator : Token) (right : Expr),
      tier.node left operator right ≠ e)
    (notUnary : ∀ (operator : Token) (operand : Expr), Expr.unary operator operand ≠ e) :
    Derives .call ts e := by
  induction tiers generalizing ts with
  | nil =>
    cases h with
    | tightest h =>
      cases h with
      | prefixed => exact absurd rfl (notUnary _ _)
      | unprefixed h => exact h
  | cons tier tighter ih =>
    cases h with
    | operand h => exact ih h
    | link => exact absurd rfl (notNode _ _ _ _)

theorem assignTo_reads (n : Nat) (target : Expr) (equals : Token) (value : Expr) :
    Reads n 0 (assignTo target equals value) fun ts rest last hi e =>
      ∀ before us rest' lo mid, (Phrase.chain Tier.all).reading before rest' lo mid target →
        equals.is .equal → Phrase.expression.reading us rest mid last value →
        Phrase.expression.reading (before ++ equals :: (us ++ ts)) rest lo hi e := by
  unfold assignTo
  split
  next id name =>
    refine (Reads.freshId n).map ?_
    rintro _ rest _ _ _ ⟨rfl, rfl, rfl⟩ before us _ lo mid ⟨derives, numbered⟩ he ⟨value', numbered'⟩
    -- A target that is a name was not built by any operator, so it was derived as one.
    have name' := derives_call_of_chain derives (by intro tier; cases tier <;> simp [Tier.node])
      (by simp)
    cases name' with
    | callee h =>
      cases h with
      | reference hn =>
        refine ⟨by simpa using Derives.assign hn he value', ?_⟩
        refine ((numbered'.append (.one _)).later numbered.le).perm ?_
        exact List.perm_append_singleton _ _
  next object name =>
    refine (Reads.pure _).weaken ?_
    rintro _ rest _ _ _ ⟨rfl, rfl, rfl⟩ before us _ lo mid ⟨derives, numbered⟩ he ⟨value', numbered'⟩
    have property := derives_call_of_chain derives (by intro tier; cases tier <;> simp [Tier.node])
      (by simp)
    cases property with
    | callee h => cases h
    | get object' hd hn =>
      refine ⟨by simpa using Derives.set object' hd hn he value', ?_⟩
      simpa [Phrase.references, Expr.references] using numbered.append numbered'
  next =>
    refine ((Reads.reportAt n equals .invalidTarget).bind fun _ => Reads.pure target).weaken ?_
    rintro _ rest lo hi e ⟨_, _, _, _, _, absurd, _⟩
    exact absurd.elim

theorem assignment_reads (hg : Sound n g) :
    Reads (n + 1) 1 (assignment g) Phrase.expression.reading := by
  have operands := chainRule_reads hg Tier.all
  rw [← operators_eq] at operands
  refine (operands.bind (j := 0) fun target =>
    Reads.acceptAny (fun equals _ => (hg.expression.le (by omega) (by omega)).bind (j := 0) fun value =>
      assignTo_reads _ target equals value) (Reads.pure target)).weaken ?_
  rintro _ rest lo hi e ⟨before, _, mid, target, rfl, ht, h⟩
  obtain ⟨equals, _, rfl, he, us, vs, last, value, rfl, hv, assigned⟩ | ⟨-, rfl, rfl, rfl⟩ := h
  · exact assigned before us _ lo mid ht (by simpa using he) hv
  · refine ⟨by simpa using Derives.operators ht.1, ht.2⟩

end Expressions

section Statements

variable {n : Nat} {g : Grammar}

theorem expressionStatement_reads (hg : Sound n g) :
    Reads (n + 1) 2 (expressionStatement g) Phrase.exprStmt.reading := by
  refine ((assignment_reads hg).bind fun e => (Reads.expect _ .semicolon _).bind fun _ =>
    Reads.pure (Stmt.expression e)).weaken ?_
  rintro _ rest lo hi _
    ⟨ts, _, _, e, rfl, ⟨derives, numbered⟩, _, _, _, semicolon, rfl, ⟨rfl, rfl, hs⟩, rfl, rfl, rfl⟩
  exact ⟨.expressionStatement derives hs, numbered⟩

theorem printStatement_reads (hg : Sound n g) (keyword : Token) (hk : keyword.is .printKw) :
    Reads (n + 1) 2 (printStatement g) fun ts =>
      (Phrase.statement false).reading (keyword :: ts) := by
  refine ((assignment_reads hg).bind fun e => (Reads.expect _ .semicolon _).bind fun _ =>
    Reads.pure (Stmt.print e)).weaken ?_
  rintro _ rest lo hi _
    ⟨ts, _, _, e, rfl, ⟨derives, numbered⟩, _, _, _, semicolon, rfl, ⟨rfl, rfl, hs⟩, rfl, rfl, rfl⟩
  exact ⟨.printStmt hk derives hs, numbered⟩

theorem varDeclaration_reads (hg : Sound n g) (keyword : Token) (hk : keyword.is .varKw) :
    Reads (n + 1) 2 (varDeclaration g) fun ts => Phrase.varDecl.reading (keyword :: ts) := by
  have close (name : Token) (initializer : Option Expr) (m : Nat) : Reads m 1
      (expectAt .semicolon .afterVariable >>= fun _ => pure (Stmt.var name initializer))
      fun ts _ lo hi s => ∃ semicolon, ts = [semicolon] ∧ semicolon.is .semicolon ∧ hi = lo ∧
        s = .var name initializer := by
    refine ((Reads.expect m .semicolon _).bind fun _ =>
      Reads.pure (Stmt.var name initializer)).weaken ?_
    rintro _ rest lo hi _ ⟨_, _, _, semicolon, rfl, ⟨rfl, rfl, hs⟩, rfl, rfl, rfl⟩
    exact ⟨semicolon, rfl, hs, rfl, rfl⟩
  have initial : Reads n 1 (some <$> g.assignment) fun ts rest lo hi o =>
      ∃ e, o = some e ∧ Phrase.expression.reading ts rest lo hi e :=
    ((assignment_reads hg).le (Nat.le_succ n) (Nat.le_refl _)).map fun _ _ _ _ e h => ⟨e, rfl, h⟩
  refine ((Reads.expect (n + 1) .identifier _).bind fun name =>
    Reads.acceptAny (k := 1) (fun _ _ => ((initial.le (Nat.sub_le ..) (Nat.le_refl _)).bind
        fun initializer => close name initializer _).le (Nat.le_refl _) (Nat.zero_le _))
      ((Reads.pure (none : Option Expr)).bind fun initializer => close name initializer _)).weaken ?_
  rintro _ rest lo hi _ ⟨_, _, _, name, rfl, ⟨rfl, rfl, hn⟩, h⟩
  obtain ⟨equal, _, rfl, he, ts, _, _, _, rfl, ⟨e, rfl, derives, numbered⟩, semicolon, rfl, hs, rfl,
    rfl⟩ | ⟨-, _, _, _, _, rfl, ⟨rfl, rfl, rfl⟩, semicolon, rfl, hs, rfl, rfl⟩ := h
  · exact ⟨.varWith hk hn (by simpa using he) derives hs, numbered⟩
  · exact ⟨.bareVar hk hn hs, .nil _⟩

theorem optionalBefore_reads (hg : Sound n g) (s : Symbol) :
    Reads (n + 1) 0 (optionalBefore g s) Phrase.optional.reading := by
  refine Reads.check ((Reads.pure none).weaken ?_)
    (((assignment_reads hg).map ?_).le (Nat.le_refl _) (by omega))
  · rintro ts rest lo hi _ ⟨rfl, rfl, rfl⟩
    exact ⟨.absent, .nil _⟩
  · rintro ts rest lo hi e ⟨derives, numbered⟩
    exact ⟨.present derives, numbered⟩

theorem forInitializer_reads (hg : Sound n g) :
    Reads (n + 1) 1 (forInitializer g) Phrase.forStart.reading := by
  refine Reads.peek fun c hc => ?_
  split
  next next =>
    obtain ⟨us, ahead, hit⟩ := Cursor.ahead_of_next? next
    refine ReadsFrom.skip ahead hc (by omega) (Reads.pure none) ?_
    rintro ts rest lo hi _ ⟨rfl, rfl, rfl⟩
    exact ⟨.noStart hit, .nil _⟩
  next next =>
    obtain ⟨us, ahead, hit⟩ := Cursor.ahead_of_next? next
    refine ReadsFrom.skip ahead hc (Nat.le_refl _)
      (((varDeclaration_reads hg _ hit).le (Nat.le_succ n) (Nat.zero_le _)).map
        (S := fun ts => Phrase.forStart.reading (c.here :: ts)) ?_) fun _ _ _ _ _ h => h
    rintro ts rest lo hi s ⟨derives, numbered⟩
    exact ⟨.startVar derives, numbered⟩
  next =>
    refine (((expressionStatement_reads hg).map ?_).le (Nat.le_refl _) (by omega)) c hc
    rintro ts rest lo hi s ⟨derives, numbered⟩
    exact ⟨.startExpr derives, numbered⟩

theorem desugarFor_eq (start : Option Stmt) (condition increment : Option Expr) (body : Stmt) :
    desugarFor start condition increment body =
      afterStart (.loop (conditionOr (.literal (.boolean true)) condition)
        (withIncrement body increment)) start := by
  cases start <;> cases condition <;> cases increment <;> rfl

theorem desugarFor_references_perm (start : Option Stmt) (condition increment : Option Expr)
    (body : Stmt) :
    (Phrase.forStart.references start ++ (Phrase.optional.references condition ++
      (Phrase.optional.references increment ++ body.references))).Perm
        (desugarFor start condition increment body).references := by
  -- The increment is read before the body but comes after it in the tree.
  have swap : (Phrase.optional.references increment ++ body.references).Perm
      (withIncrement body increment).references := by
    cases increment with
    | none => exact .refl _
    | some e =>
      simp only [Phrase.references, withIncrement, Stmt.references, stmtReferences, List.append_nil]
      exact List.perm_append_comm
  rw [desugarFor_eq]
  cases start <;> cases condition <;>
    simpa [Phrase.references, afterStart, conditionOr, Stmt.references, stmtReferences,
      Expr.references, List.perm_append_left_iff] using swap

theorem forStatement_reads (hg : Sound n g) (keyword : Token) (hk : keyword.is .forKw) :
    Reads n 3 (forStatement g) fun ts => statementReading (keyword :: ts) := by
  refine ((Reads.expect n .leftParen _).bind fun _ =>
    ((forInitializer_reads hg).le (by omega) (Nat.le_refl _)).bind fun start =>
    ((optionalBefore_reads hg .semicolon).le (by omega) (Nat.le_refl _)).bind fun condition =>
    (Reads.expect _ .semicolon _).bind fun _ =>
    ((optionalBefore_reads hg .rightParen).le (by omega) (Nat.le_refl _)).bind fun increment =>
    (Reads.expect _ .rightParen _).bind fun _ =>
    (hg.statement.le (by omega) (Nat.le_refl _)).bind fun body =>
      Reads.pure (desugarFor start condition increment body)).mono (Nat.le_refl _) (by omega) ?_
  rintro _ rest lo hi _
    ⟨_, _, _, opening, rfl, ⟨rfl, rfl, ho⟩, us, _, _, start, rfl, ⟨start', numbered₁⟩,
      vs, _, _, condition, rfl, ⟨condition', numbered₂⟩, _, _, _, middle, rfl, ⟨rfl, rfl, hm⟩,
      ws, _, _, increment, rfl, ⟨increment', numbered₃⟩, _, _, _, closing, rfl, ⟨rfl, rfl, hc⟩,
      xs, _, _, body, rfl, ⟨dangling, ⟨body', numbered₄⟩, follow⟩, rfl, rfl, rfl⟩
  refine ⟨dangling, ⟨?_, ?_⟩, follow⟩
  · rw [desugarFor_eq]
    simpa using Derives.forStmt hk ho start' condition' hm increment' hc body'
  · refine (numbered₁.append (numbered₂.append (numbered₃.append numbered₄))).perm ?_
    have reordered := (desugarFor_references_perm start condition increment body).map (·.id)
    simp only [List.map_append] at reordered
    exact reordered

def conditionReading : Reading Expr := fun ts _ lo hi e =>
  ∃ opening us closing, ts = opening :: (us ++ [closing]) ∧ opening.is .leftParen ∧
    Derives .expression us e ∧ closing.is .rightParen ∧ Numbered lo hi (e.references.map (·.id))

theorem conditionAfter_reads (hg : Sound n g) (s : Symbol) :
    Reads (n + 1) 3 (conditionAfter g s) conditionReading := by
  refine ((Reads.expect _ .leftParen _).bind fun _ =>
    ((assignment_reads hg).le (by omega) (Nat.le_refl _)).bind fun condition =>
    (Reads.expect _ .rightParen _).bind fun _ => Reads.pure condition).weaken ?_
  rintro _ rest lo hi _
    ⟨_, _, _, opening, rfl, ⟨rfl, rfl, ho⟩, ts, _, _, e, rfl, ⟨derives, numbered⟩, _, _, _, closing,
      rfl, ⟨rfl, rfl, hc⟩, rfl, rfl, rfl⟩
  exact ⟨opening, ts, closing, rfl, ho, derives, hc, numbered⟩

theorem ifStatement_reads (hg : Sound n g) (keyword : Token) (hk : keyword.is .ifKw) :
    Reads n 3 (ifStatement g) fun ts => statementReading (keyword :: ts) := by
  refine (((conditionAfter_reads hg .ifKw).le (by omega) (Nat.le_refl _)).bind fun condition =>
    (hg.statement.le (by omega) (Nat.le_refl _)).bind fun thenBranch =>
    Reads.acceptAny (k := 0)
      (fun _ _ => ((hg.statement.le (by omega) (Nat.le_refl _)).bind fun elseBranch =>
        Reads.pure (Stmt.conditional condition thenBranch (some elseBranch))).le
          (Nat.le_refl _) (by omega))
      (Reads.pure (Stmt.conditional condition thenBranch none))).mono (Nat.le_refl _) (by omega) ?_
  rintro _ rest lo hi _
    ⟨_, _, _, condition, rfl, ⟨opening, ts, closing, rfl, ho, condition', hc, numbered₁⟩,
      us, _, mid, thenBranch, rfl, ⟨dangling, ⟨then', numbered₂⟩, follow⟩, h⟩
  have both : Numbered lo mid
      (condition.references.map (·.id) ++ thenBranch.references.map (·.id)) :=
    numbered₁.append numbered₂
  obtain ⟨otherwise, _, rfl, he, vs, _, _, elseBranch, rfl, ⟨dangling', ⟨else', numbered₃⟩, follow'⟩,
    rfl, rfl, rfl⟩ | ⟨clear, rfl, rfl, rfl⟩ := h
  · -- An `else` right behind the first branch shows that it is not dangling.
    cases dangling with
    | true => exact absurd he (follow rfl _ _ rfl)
    | false =>
      refine ⟨dangling', ⟨?_, ?_⟩, follow'⟩
      · simpa using Derives.ifElseStmt hk ho condition' hc then' (by simpa using he) else'
      · simpa [Phrase.references, Stmt.references] using both.append numbered₃
  · refine ⟨true, ⟨?_, ?_⟩, fun _ => by simpa using clear⟩
    · simpa using Derives.ifStmt hk ho condition' hc then'
    · simpa [Phrase.references, Stmt.references] using both

theorem whileStatement_reads (hg : Sound n g) (keyword : Token) (hk : keyword.is .whileKw) :
    Reads n 3 (whileStatement g) fun ts => statementReading (keyword :: ts) := by
  refine (((conditionAfter_reads hg .whileKw).le (by omega) (Nat.le_refl _)).bind fun condition =>
    (hg.statement.le (by omega) (Nat.le_refl _)).bind fun body =>
      Reads.pure (Stmt.loop condition body)).mono (Nat.le_refl _) (by omega) ?_
  rintro _ rest lo hi _
    ⟨_, _, _, condition, rfl, ⟨opening, ts, closing, rfl, ho, condition', hc, numbered₁⟩,
      us, _, mid, body, rfl, ⟨dangling, ⟨body', numbered₂⟩, follow⟩, rfl, rfl, rfl⟩
  refine ⟨dangling, ⟨?_, ?_⟩, follow⟩
  · simpa using Derives.whileStmt hk ho condition' hc body'
  · simpa [Phrase.references, Stmt.references] using numbered₁.append numbered₂

theorem breakStatement_reads (n : Nat) (keyword : Token) (hk : keyword.is .breakKw) :
    Reads n 1 (breakStatement keyword) fun ts =>
      (Phrase.statement false).reading (keyword :: ts) := by
  refine ((Reads.expect n .semicolon _).bind fun _ =>
    Reads.pure (Stmt.breakLoop keyword)).weaken ?_
  rintro _ rest lo hi _ ⟨_, _, _, semicolon, rfl, ⟨rfl, rfl, hs⟩, rfl, rfl, rfl⟩
  exact ⟨.breakStmt hk hs, .nil _⟩

theorem returnStatement_reads (hg : Sound n g) (keyword : Token) (hk : keyword.is .returnKw) :
    Reads (n + 1) 1 (returnStatement g keyword) fun ts =>
      (Phrase.statement false).reading (keyword :: ts) := by
  refine ((optionalBefore_reads hg .semicolon).bind fun value =>
    (Reads.expect _ .semicolon _).bind fun _ => Reads.pure (Stmt.returnFrom keyword value)).weaken ?_
  rintro _ rest lo hi _
    ⟨ts, _, _, value, rfl, ⟨derives, numbered⟩, _, _, _, semicolon, rfl, ⟨rfl, rfl, hs⟩, rfl, rfl,
      rfl⟩
  refine ⟨.returnStmt hk derives hs, ?_⟩
  cases value <;> exact numbered

theorem statementReading_of_false {ts rest : List Token} {lo hi : RefId} {s : Stmt}
    (h : (Phrase.statement false).reading ts rest lo hi s) : statementReading ts rest lo hi s :=
  ⟨false, h, by simp⟩

def statementFrom (g : Grammar) (t : Token) : Option Symbol → Parser Stmt
  | some .forKw => skip >>= fun _ => forStatement g
  | some .ifKw => skip >>= fun _ => ifStatement g
  | some .whileKw => skip >>= fun _ => whileStatement g
  | some .breakKw => skip >>= fun _ => breakStatement t
  | some .returnKw => skip >>= fun _ => returnStatement g t
  | some .leftBrace => skip >>= fun _ => Stmt.block <$> g.block
  | some .printKw => skip >>= fun _ => printStatement g
  | _ => expressionStatement g

theorem statementRule_apply (g : Grammar) (c : Cursor) :
    statementRule g c = statementFrom g c.here c.next? c :=
  peek?_bind (statementFrom g c.here) c

theorem statementRule_reads (hg : Sound n g) :
    Reads (n + 1) 1 (statementRule g) statementReading := by
  intro c hc
  refine ReadsFrom.stay (statementRule_apply g c) ?_ fun _ _ _ _ _ _ h => h
  have behind {q : Parser Stmt} {k : Nat} {s : Symbol} (next : c.next? = some s)
      (hq : c.here.is s → Reads n k q fun ts => statementReading (c.here :: ts)) :
      ReadsFrom c 1 (skip >>= fun _ => q) statementReading := by
    obtain ⟨us, ahead, hit⟩ := Cursor.ahead_of_next? next
    exact ReadsFrom.skip ahead hc (by omega) (hq hit) fun _ _ _ _ _ h => h
  unfold statementFrom
  split
  next next => exact behind next fun hit => forStatement_reads hg _ hit
  next next => exact behind next fun hit => ifStatement_reads hg _ hit
  next next => exact behind next fun hit => whileStatement_reads hg _ hit
  next next =>
    refine behind next fun hit => (breakStatement_reads n _ hit).weaken ?_
    exact fun _ _ _ _ _ h => statementReading_of_false h
  next next =>
    refine behind next fun hit => ((returnStatement_reads hg _ hit).mono (Nat.le_succ n)
      (Nat.le_refl _)) ?_
    exact fun _ _ _ _ _ h => statementReading_of_false h
  next next =>
    refine behind next fun hit => (block_reads hg).map ?_
    intro ts rest lo hi body h
    obtain ⟨derives, numbered⟩ := h _ hit
    exact statementReading_of_false ⟨.blockStmt derives, numbered⟩
  next next =>
    refine behind next fun hit => ((printStatement_reads hg _ hit).mono (Nat.le_succ n)
      (Nat.le_refl _)) ?_
    exact fun _ _ _ _ _ h => statementReading_of_false h
  next =>
    refine ((expressionStatement_reads hg).mono (Nat.le_refl _) (by omega) ?_) c hc
    exact fun _ _ _ _ _ h => statementReading_of_false ⟨.exprStmt h.1, h.2⟩

theorem namedFunction_reads (hg : Sound n g) (routine : Routine) :
    Reads n 5 (namedFunction g routine) Phrase.function.reading := by
  refine ((Reads.expect n .identifier _).bind fun name => (Reads.expect _ .leftParen _).bind fun _ =>
    (functionRest_reads hg (some name) routine).le (by omega) (Nat.le_refl _)).weaken ?_
  rintro _ rest lo hi _
    ⟨_, _, _, name, rfl, ⟨rfl, rfl, hn⟩, _, _, _, opening, rfl, ⟨rfl, rfl, ho⟩,
      params, body, us, vs, closing, rfl, rfl, parameters, hc, block, numbered⟩
  exact ⟨.function hn ho parameters hc block, numbered⟩

theorem methods_reads (hg : Sound n g) :
    ∀ (k : Nat) (found : List Function),
      Reads n 0 (methods g k found) fun ts rest lo hi fs =>
        ∃ more, fs = found.reverse ++ more ∧ Phrase.functions.reading ts rest lo hi more := by
  intro k
  induction k with
  | zero =>
    intro found
    refine (Reads.pure found.reverse).weaken ?_
    rintro ts rest lo hi _ ⟨rfl, rfl, rfl⟩
    exact ⟨[], by simp, .noFunctions, .nil _⟩
  | succ k ih =>
    intro found
    have round (b : Bool) : Reads n 0
        (if b = true then pure found.reverse
          else namedFunction g .method >>= fun f => methods g k (f :: found))
        fun ts rest lo hi fs =>
          ∃ more, fs = found.reverse ++ more ∧ Phrase.functions.reading ts rest lo hi more := by
      cases b with
      | true =>
        refine (Reads.pure found.reverse).weaken ?_
        rintro ts rest lo hi _ ⟨rfl, rfl, rfl⟩
        exact ⟨[], by simp, .noFunctions, .nil _⟩
      | false =>
        refine (((namedFunction_reads hg .method).le (Nat.le_refl _) (Nat.zero_le _)).bind
          fun f => ih (f :: found)).weaken ?_
        rintro _ rest lo hi _
          ⟨ts, us, _, f, rfl, ⟨derives, numbered⟩, more, rfl, derives', numbered'⟩
        refine ⟨f :: more, by simp, .moreFunctions derives derives', ?_⟩
        simpa [Phrase.references, functionReferences] using numbered.append numbered'
    refine ((atBlockEnd_reads n).bind fun b => round b).weaken ?_
    rintro _ rest lo hi fs ⟨_, ts, _, b, rfl, ⟨rfl, rfl⟩, h⟩
    exact h

theorem superclassClause_reads (n : Nat) :
    Reads n 0 superclassClause Phrase.superclass.reading := by
  refine (Reads.acceptAny (k := 0)
    (fun _ _ => ((Reads.expect _ .identifier _).bind fun name => (Reads.freshId _).bind fun id =>
      Reads.pure (some (Expr.variable id name))).le (Nat.le_refl _) (Nat.zero_le _))
    (Reads.pure (none : Option Expr))).weaken ?_
  rintro _ rest lo hi _ (⟨less, _, rfl, hl, _, _, _, name, rfl, ⟨rfl, rfl, hn⟩, _, _, _, id, rfl,
    ⟨rfl, rfl, rfl⟩, rfl, rfl, rfl⟩ | ⟨-, rfl, rfl, rfl⟩)
  · exact ⟨.superclass (by simpa using hl) hn, .one _⟩
  · exact ⟨.noSuperclass, .nil _⟩

theorem classDeclaration_reads (hg : Sound n g) (keyword : Token) (hk : keyword.is .classKw) :
    Reads n 3 (classDeclaration g) fun ts =>
      (Phrase.declaration false).reading (keyword :: ts) := by
  refine ((Reads.expect n .identifier _).bind fun name => (superclassClause_reads _).bind fun parent =>
    (Reads.expect _ .leftBrace _).bind fun _ =>
    ((methods_reads hg g.rounds []).le (by omega) (Nat.le_refl _)).bind fun found =>
    (Reads.expect _ .rightBrace _).bind fun _ =>
      Reads.pure (Stmt.classDecl name parent found)).weaken ?_
  rintro _ rest lo hi _
    ⟨_, _, _, name, rfl, ⟨rfl, rfl, hn⟩, us, _, _, parent, rfl, ⟨parent', numbered₁⟩,
      _, _, _, opening, rfl, ⟨rfl, rfl, ho⟩, vs, _, _, _, rfl, ⟨found, rfl, methods', numbered₂⟩,
      _, _, _, closing, rfl, ⟨rfl, rfl, hc⟩, rfl, rfl, rfl⟩
  refine ⟨by simpa using Derives.classDecl hk hn parent' ho methods' hc, ?_⟩
  have numbered := numbered₁.append numbered₂
  cases parent <;> simpa [Phrase.references, Stmt.references] using numbered

def declarationFrom (g : Grammar) (named : Bool) (next : Option Symbol) : Parser Stmt :=
  if named then skip >>= fun _ => Stmt.function <$> namedFunction g .function
  else match next with
    | some .classKw => skip >>= fun _ => classDeclaration g
    | some .varKw => skip >>= fun _ => varDeclaration g
    | _ => statementRule g

theorem declarationBody_apply (g : Grammar) (c : Cursor) :
    declarationBody g c = declarationFrom g (startsFunction c.ahead) c.next? c := by
  change (if startsFunction c.ahead then _ else _ : Parser Stmt) c = _
  unfold declarationFrom
  split
  · rfl
  · exact peek?_bind _ c

theorem declarationBody_reads (hg : Sound n g) :
    Reads (n + 1) 1 (declarationBody g) fun ts rest lo hi s =>
      ∃ d, (Phrase.declaration d).reading ts rest lo hi s := by
  intro c hc
  have behind {q : Parser Stmt} {k : Nat} {s : Symbol} {us : List Token}
      (ahead : c.ahead = c.here :: us) (hit : c.here.is s)
      (hq : c.here.is s → Reads n k q fun ts =>
        (Phrase.declaration false).reading (c.here :: ts)) :
      ReadsFrom c 1 (skip >>= fun _ => q) fun ts rest lo hi s =>
        ∃ d, (Phrase.declaration d).reading ts rest lo hi s :=
    ReadsFrom.skip ahead hc (by omega) (hq hit) fun _ _ _ _ _ h => ⟨false, h⟩
  -- Which rule is applied is decided without reading on, and only `fun` needs a second token.
  refine ReadsFrom.stay (declarationBody_apply g c) ?_ fun _ _ _ _ _ _ h => h
  unfold declarationFrom
  split
  next starts =>
    rcases c with ⟨_ | ⟨t, us⟩, last, reported, nextId⟩
    · cases starts
    have keyword : t.is .funKw := by
      cases us with
      | nil => cases starts
      | cons name us =>
        simp only [startsFunction, Bool.and_eq_true] at starts
        exact starts.1
    refine behind rfl keyword fun hit => (namedFunction_reads hg .function).map ?_
    rintro ts rest lo hi f ⟨derives, numbered⟩
    exact ⟨.funDecl hit derives, numbered⟩
  next =>
    split
    next next =>
      obtain ⟨us, ahead, hit⟩ := Cursor.ahead_of_next? next
      exact behind ahead hit fun hit => classDeclaration_reads hg _ hit
    next next =>
      obtain ⟨us, ahead, hit⟩ := Cursor.ahead_of_next? next
      refine behind ahead hit fun hit => (varDeclaration_reads hg _ hit).mono (Nat.le_succ n)
        (Nat.le_refl _) ?_
      exact fun _ _ _ _ _ h => ⟨.varDecl h.1, h.2⟩
    next =>
      refine ((statementRule_reads hg).weaken ?_) c hc
      rintro ts rest lo hi s ⟨d, ⟨derives, numbered⟩, -⟩
      exact ⟨d, .statement derives, numbered⟩

theorem resume_length_le : ∀ (skipped : Token) (ts : List Token),
    (Cursor.resume skipped ts).length ≤ ts.length := by
  intro skipped ts
  induction ts generalizing skipped with
  | nil => exact Nat.le_refl _
  | cons t rest ih =>
    unfold Cursor.resume
    split
    · exact Nat.le_refl _
    · exact Nat.le_succ_of_le (ih t)

theorem synchronize_length_le (c : Cursor) : c.synchronize.ahead.length ≤ c.ahead.length := by
  rcases c with ⟨_ | ⟨t, rest⟩, last, reported, nextId⟩
  · exact Nat.le_refl _
  · exact Nat.le_succ_of_le (resume_length_le t rest)

theorem synchronize_reported (c : Cursor) : c.synchronize.reported = c.reported := by
  rcases c with ⟨_ | ⟨t, rest⟩, last, reported, nextId⟩ <;> rfl

theorem declarationRule_reads (hg : Sound n g) :
    Reads (n + 1) 0 (declarationRule g) declarationReading := by
  intro c hc
  have body := declarationBody_reads hg c hc
  unfold ReadsFrom declarationRule at *
  cases hx : declarationBody g c with
  | ok s c' =>
    rw [hx] at body
    refine ⟨by simp only at body ⊢; omega, fun clean => ?_⟩
    obtain ⟨before, ts, hts, d, h⟩ := body.2 clean
    refine ⟨before, ts, hts, s, d, rfl, ?_, h⟩
    rintro rfl
    have shorter := body.1
    rw [hts, List.nil_append] at shorter
    omega
  -- A declaration that was given up has been reported, so the end is not clean.
  | error e c' =>
    rw [hx] at body
    refine ⟨Nat.le_trans (synchronize_length_le _) body, fun clean => ?_⟩
    rw [synchronize_reported] at clean
    cases clean

end Statements

theorem size_upTo (n : Nat) : (upTo n).size = n := by
  cases n <;> rfl

theorem upTo_sound (n : Nat) : Sound n (upTo n) := by
  induction n with
  | zero =>
    refine ⟨Nat.le_refl _, fun c _ => Nat.le_refl _, fun c _ => Nat.le_refl _, fun c _ => ?_⟩
    exact ⟨Nat.le_refl _, fun clean => by cases clean⟩
  | succ n ih =>
    exact ⟨Nat.le_refl _, assignment_reads ih, statementRule_reads ih, declarationRule_reads ih⟩

end Grammar

open Quill.Parser in
theorem parseProgram_derives {lo hi : RefId} {tokens : List Token} {program : List Stmt}
    (h : parseProgram lo tokens = .ok (program, hi)) :
    Derives .declarations (tokens.takeWhile fun t => !t.is .eof) program ∧
      Numbered lo hi ((stmtReferences program).map (·.id)) := by
  let c := Cursor.start lo tokens
  let n := c.ahead.length
  have hstop : Reads n 0 atEnd fun ts rest lo hi b =>
      ts = [] ∧ hi = lo ∧ (b = true → rest = []) := fun c _ =>
    ⟨Nat.le_refl _, fun clean => ⟨clean, [], rfl, rfl, rfl, List.isEmpty_iff.mp⟩⟩
  have read := Grammar.declarationsUntil_reads _ hstop (Grammar.upTo_sound n).declaration n [] c
    (Nat.le_refl _)
  have run : programRule (Cursor.start lo tokens) =
      Grammar.declarationsUntil atEnd (Grammar.upTo n).declaration n [] c := rfl
  unfold parseProgram parseWith at h
  rw [run] at h
  unfold ReadsFrom at read
  split at h
  next x c' hx =>
    rw [hx] at read
    split at h
    next clean =>
      cases h
      obtain ⟨-, ts, hts, body, rfl, ⟨derives, numbered⟩, enough⟩ :=
        read.2 (List.isEmpty_iff.mp clean)
      -- There are as many rounds as tokens, so the loop cannot have run out of them too early.
      have all : c'.ahead = [] := by
        rcases enough with rounds | stopped
        · have total := congrArg List.length hts
          rw [List.length_append] at total
          exact List.length_eq_zero_iff.mp (by omega)
        · exact stopped
      rw [all, List.append_nil] at hts
      rw [← hts] at derives
      exact ⟨derives, numbered⟩
    next => cases h
  next => cases h

open Quill.Parser in
theorem parseExpression_reads {lo hi : RefId} {tokens : List Token} {e : Expr}
    (h : parseExpression lo tokens = .ok (e, hi)) {n : Nat}
    (all : (Cursor.start lo tokens).ahead.length = n) :
    ∃ last, (Grammar.upTo n).expression (Cursor.start lo tokens) = .ok e ⟨[], last, [], hi⟩ := by
  have run : loneExpressionRule (Cursor.start lo tokens) =
      match (Grammar.upTo n).expression (Cursor.start lo tokens) with
      | .ok e c => (if c.ahead.isEmpty then pure e else fail .expectedEnd : Parser Expr) c
      | .error fault c => .error fault c := by
    change EStateM.bind (Grammar.upTo (Cursor.start lo tokens).ahead.length).expression _ _ = _
    rw [all]
    unfold EStateM.bind
    cases (Grammar.upTo n).expression (Cursor.start lo tokens) <;> rfl
  unfold parseExpression parseWith at h
  rw [run] at h
  cases result : (Grammar.upTo n).expression (Cursor.start lo tokens) with
  | error fault c =>
    rw [result] at h
    cases h
  | ok e' c =>
    obtain ⟨ahead, last, reported, next⟩ := c
    rw [result] at h
    cases ahead with
    | cons => cases h
    | nil =>
      change (if reported.isEmpty then _ else _) = _ at h
      split at h
      next clean =>
        cases h
        cases List.isEmpty_iff.mp clean
        exact ⟨last, rfl⟩
      next => cases h

theorem parseExpression_derives {lo hi : RefId} {tokens : List Token} {e : Expr}
    (parsed : parseExpression lo tokens = .ok (e, hi)) :
    Derives .expression (tokens.takeWhile fun t => !t.is .eof) e ∧
      Numbered lo hi (e.references.map (·.id)) := by
  let c := Cursor.start lo tokens
  have read := (Grammar.upTo_sound c.ahead.length).expression c (Nat.le_refl _)
  obtain ⟨last, result⟩ := parseExpression_reads parsed rfl
  unfold ReadsFrom at read
  rw [result] at read
  obtain ⟨-, ts, same, derives, numbered⟩ := read.2 rfl
  rw [List.append_nil] at same
  rw [← same] at derives
  exact ⟨derives, numbered⟩

end Quill
