import Quill.Proofs.Grammar.Lookahead
import Quill.Proofs.Grammar.Soundness

set_option autoImplicit false

namespace Quill

def BeginsClosed (tail : List Token) : Prop :=
  ∃ t more, tail = t :: more ∧ t.is .semicolon

def Reading.inFront {α : Type} (tail : List Token) (q : Parser α) : Reading α :=
  fun ts rest lo hi x =>
    ∀ last, q ⟨ts ++ (rest ++ tail), last, [], lo⟩ = .ok x ⟨rest ++ tail, last, [], hi⟩

def Echoes {α : Type} (tail : List Token) (n k : Nat) (p q : Parser α) : Prop :=
  Reads n k p (Reading.inFront tail q)

namespace Reads

variable {α : Type} {n k : Nat} {p : Parser α} {R : Reading α}

theorem bounded (reads : Reads n k p R) :
    Reads n k p fun ts rest lo hi x => ts.length + rest.length ≤ n ∧ R ts rest lo hi x := by
  intro c hc
  refine ReadsFrom.stay rfl (reads c hc) fun ts rest lo hi x ahead read => ⟨?_, read⟩
  rw [← List.length_append, ← ahead]
  exact hc

theorem nonempty (reads : Reads n (k + 1) p R) :
    Reads n (k + 1) p fun ts rest lo hi x => ts ≠ [] ∧ R ts rest lo hi x := by
  intro c hc
  have read := reads c hc
  unfold ReadsFrom at read ⊢
  cases result : p c with
  | error e c' =>
    rw [result] at read
    exact read
  | ok x c' =>
    rw [result] at read
    refine ⟨read.1, fun clean => ?_⟩
    obtain ⟨before, ts, ahead, here⟩ := read.2 clean
    refine ⟨before, ts, ahead, ?_, here⟩
    rintro rfl
    have shorter := read.1
    rw [ahead, List.nil_append] at shorter
    omega

end Reads

theorem ReadsFrom.of_end {α : Type} {c : Cursor} {j k : Nat} {p : Parser α} {R S : Reading α}
    (none : c.ahead = []) (some : 0 < k) (reads : ReadsFrom c k p R) : ReadsFrom c j p S := by
  unfold ReadsFrom at reads ⊢
  cases result : p c with
  | error e c' =>
    rw [result] at reads
    exact reads
  | ok x c' =>
    rw [result, none] at reads
    have shorter := reads.1
    simp only [List.length_nil] at shorter
    omega

namespace Echoes

variable {α β : Type} {tail : List Token} {n k j : Nat} {p q : Parser α}

theorem le {n' k' : Nat} (echoes : Echoes tail n k p q) (hn : n' ≤ n) (hk : k' ≤ k) :
    Echoes tail n' k' p q :=
  Reads.le echoes hn hk

theorem bind {f g : α → Parser β} (first : Echoes tail n k p q)
    (next : ∀ x, Echoes tail (n - k) j (f x) (g x)) :
    Echoes tail n (k + j) (p >>= f) (q >>= g) := by
  refine (Reads.bind first next).weaken ?_
  rintro _ rest lo hi y ⟨a, b, mid, x, rfl, one, two⟩ last
  have one' := one last
  rw [List.append_assoc] at one'
  rw [List.append_assoc, Parser.bind_ok one']
  exact two last

theorem pure (x : α) : Echoes tail n 0 (Pure.pure x : Parser α) (Pure.pure x) := by
  refine (Reads.pure x).weaken ?_
  rintro ts rest lo hi y ⟨rfl, rfl, rfl⟩ last
  rfl

theorem map (f : α → β) (first : Echoes tail n k p q) :
    Echoes tail n k (f <$> p) (f <$> q) := by
  refine Reads.map first fun ts rest lo hi x read last => ?_
  change EStateM.map f q _ = _
  unfold EStateM.map
  rw [read last]

theorem fail (fault : SyntaxFault) : Echoes tail n k (Parser.fail fault) q :=
  Reads.fail fault

theorem expect (s : Symbol) (fault : SyntaxFault) :
    Echoes tail n 1 (Parser.expect s fault) (Parser.expect s fault) := by
  refine (Reads.expect n s fault).weaken ?_
  rintro _ rest lo hi t ⟨rfl, rfl, hit⟩ last
  rw [List.singleton_append, Parser.expect_apply, if_pos hit]

theorem freshId : Echoes tail n 0 Parser.freshId Parser.freshId := by
  refine (Reads.freshId n).weaken ?_
  rintro ts rest lo hi id ⟨rfl, rfl, rfl⟩ last
  rfl

theorem reportAt (t : Token) (fault : SyntaxFault) {q : Parser Unit} :
    Echoes tail n 0 (Parser.reportAt t fault) q :=
  (Reads.reportAt n t fault).weaken fun _ _ _ _ _ absurd => absurd.elim

theorem reportHere (fault : SyntaxFault) {q : Parser Unit} :
    Echoes tail n 0 (Parser.reportHere fault) q :=
  (Reads.reportHere n fault).weaken fun _ _ _ _ _ absurd => absurd.elim

theorem acceptAny (closed : BeginsClosed tail) {symbols : List Symbol}
    {f g : Option Token → Parser α} (apart : .semicolon ∉ symbols)
    (taken : ∀ t, 0 < n → Echoes tail (n - 1) (k - 1) (f (some t)) (g (some t)))
    (left : Echoes tail n k (f none) (g none)) :
    Echoes tail n k (Parser.acceptAny? symbols >>= f) (Parser.acceptAny? symbols >>= g) := by
  refine (Reads.acceptAny taken left).weaken ?_
  rintro ts rest lo hi x (⟨t, us, rfl, hit, read⟩ | ⟨clear, read⟩) last
  · change EStateM.bind (Parser.acceptAny? symbols) g _ = _
    simp only [EStateM.bind, Parser.acceptAny?, List.cons_append, hit, if_true]
    exact read last
  · have passed : Parser.acceptAny? symbols ⟨ts ++ (rest ++ tail), last, [], lo⟩ =
        .ok none ⟨ts ++ (rest ++ tail), last, [], lo⟩ := by
      rw [← List.append_assoc]
      obtain ⟨semicolon, more, rfl, stop⟩ := closed
      cases ahead : ts ++ rest with
      | nil => simp [Parser.acceptAny?, Token.not_any_is stop apart]
      | cons t us => simp [Parser.acceptAny?, clear t us ahead]
    rw [Parser.bind_ok passed]
    exact read last

theorem check (closed : BeginsClosed tail) {s : Symbol} {f g : Bool → Parser α}
    (met : Echoes tail n k (f true) (g true)) (other : Echoes tail n j (f false) (g false))
    (le : k ≤ j) (apart : s = .semicolon → 0 < j) :
    Echoes tail n k (Parser.check s >>= f) (Parser.check s >>= g) := by
  intro c hc
  rcases c with ⟨_ | ⟨t, us⟩, last, reported, nextId⟩
  -- With nothing ahead, what is met in front of the tail is its first token, a semicolon.
  · refine ReadsFrom.stay (q := f false) rfl ?_ fun _ _ _ _ _ _ read => read
    by_cases stop : s = .semicolon
    · exact ReadsFrom.of_end rfl (apart stop) (other _ hc)
    · refine ReadsFrom.stay rfl ((other.le (Nat.le_refl _) le) _ hc)
        fun ts rest lo hi x ahead read last' => ?_
      obtain ⟨rfl, rfl⟩ := List.append_eq_nil_iff.mp ahead.symm
      obtain ⟨semicolon, more, rfl, hit⟩ := closed
      have differs : semicolon.is s = false :=
        Bool.eq_false_iff.mpr fun same => stop (Token.is_unique same hit)
      change g (semicolon.is s) _ = _
      rw [differs]
      exact read last'
  · have both (b : Bool) : Echoes tail n k (f b) (g b) := by
      cases b with
      | true => exact met
      | false => exact other.le (Nat.le_refl _) le
    refine ReadsFrom.stay (q := f (t.is s)) rfl (both (t.is s) _ hc)
      fun ts rest lo hi x ahead read last' => ?_
    have first : ∃ vs, ts ++ (rest ++ tail) = t :: vs := by
      rw [← List.append_assoc, ← ahead]
      exact ⟨_, rfl⟩
    obtain ⟨vs, first⟩ := first
    have read' := read last'
    rw [first] at read' ⊢
    exact read'

theorem skip {c : Cursor} {f g : Unit → Parser α} (some : c.ahead ≠ [])
    (hc : c.ahead.length ≤ n) (hk : k ≤ j + 1) (later : Echoes tail (n - 1) j (f ()) (g ())) :
    ReadsFrom c k (Parser.skip >>= f) (Reading.inFront tail (Parser.skip >>= g)) := by
  obtain ⟨t, us, ahead⟩ := List.exists_cons_of_ne_nil some
  exact ReadsFrom.skip ahead hc hk later fun _ _ _ _ _ read => read

theorem next?_append {ts rest tail us : List Token} {t last : Token} {lo : RefId} {c : Cursor}
    (ahead : c.ahead = ts ++ rest) (first : c.ahead = t :: us) :
    Cursor.next? ⟨ts ++ (rest ++ tail), last, [], lo⟩ = c.next? := by
  rw [← List.append_assoc, ← ahead]
  unfold Cursor.next?
  rw [first]
  rcases t with ⟨kind, lexeme, line⟩
  cases kind <;> rfl

theorem peek (closed : BeginsClosed tail) {f g : Option Symbol → Parser α}
    (each : ∀ c : Cursor, c.ahead.length ≤ n → c.ahead ≠ [] →
      ReadsFrom c k (f c.next?) (Reading.inFront tail (g c.next?)))
    (ended : Echoes tail 0 k (f none) (g (some .semicolon))) :
    Echoes tail n k (Parser.peek? >>= f) (Parser.peek? >>= g) := by
  refine Reads.peek fun c hc => ?_
  cases first : c.ahead with
  | nil =>
    have none : c.next? = none := by
      unfold Cursor.next?
      rw [first]
    rw [none]
    refine ReadsFrom.stay rfl (ended c (by simp [first])) fun ts rest lo hi x ahead read last => ?_
    rw [first] at ahead
    obtain ⟨rfl, rfl⟩ := List.append_eq_nil_iff.mp ahead.symm
    obtain ⟨semicolon, more, rfl, hit⟩ := closed
    rw [Parser.peek?_bind, List.nil_append, List.nil_append, next?_cons hit]
    exact read last
  | cons t us =>
    refine ReadsFrom.stay rfl (each c hc (by simp [first]))
      fun ts rest lo hi x ahead read last => ?_
    rw [Parser.peek?_bind, next?_append ahead first]
    exact read last

theorem ended {q' : Parser α} (some : 0 < k) (echoes : Echoes tail n k p q) :
    Echoes tail 0 j p q' := by
  intro c hc
  have none := List.length_eq_zero_iff.mp (Nat.le_zero.mp hc)
  exact ReadsFrom.of_end none some (echoes c (by simp [none]))

end Echoes

namespace Grammar

open Quill.Parser

structure Echo (tail : List Token) (n : Nat) (g g' : Grammar) : Prop where
  size : n ≤ g.size
  larger : g.size ≤ g'.size
  expression : Echoes tail n 1 g.expression g'.expression
  statement : Echoes tail n 1 g.statement g'.statement
  declaration : Reads n 0 g.declaration fun ts rest lo hi x =>
    ts ≠ [] ∧ Reading.inFront tail g'.declaration ts rest lo hi x

section Lists

variable {α : Type} {tail : List Token} {item item' : Parser α}

theorem items_round_echoes (closed : BeginsClosed tail) {tooMany : SyntaxFault} {k k' n : Nat}
    {found : List α} (each : Echoes tail n 1 item item')
    (others : ∀ x, 0 < n - 1 → Echoes tail (n - 1 - 1) 0 (items tooMany item k (x :: found))
      (items tooMany item' k' (x :: found))) :
    Echoes tail n 1
      (item >>= fun x => accept? .comma >>= fun
        | some _ => items tooMany item k (x :: found)
        | none => pure (x :: found).reverse)
      (item' >>= fun x => accept? .comma >>= fun
        | some _ => items tooMany item' k' (x :: found)
        | none => pure (x :: found).reverse) :=
  each.bind (j := 0) fun x =>
    .acceptAny closed (by decide) (fun _ some => others x some) (.pure _)

theorem items_echoes (closed : BeginsClosed tail) (tooMany : SyntaxFault) :
    ∀ (k k' n : Nat) (found : List α), Echoes tail n 1 item item' → n ≤ k → 0 < k → k ≤ k' →
      Echoes tail n 1 (items tooMany item k found) (items tooMany item' k' found) := by
  intro k
  induction k with
  | zero => intro k' n found _ _ some; omega
  | succ k ih =>
    intro k' n found each enough _ le
    obtain ⟨k', rfl⟩ := Nat.exists_eq_succ_of_ne_zero (n := k') (by omega)
    have round := items_round_echoes closed each fun x some =>
      (ih k' (n - 1 - 1) (x :: found) (each.le (by omega) (Nat.le_refl _)) (by omega) (by omega)
        (by omega)).le (Nat.le_refl _) (Nat.zero_le _)
    unfold items
    by_cases full : maxItems ≤ found.length
    · simp only [full, if_true]
      exact (Echoes.reportHere tooMany).bind (k := 0) fun _ => round
    · simp only [full]
      exact round

theorem itemsBeforeParen_echoes (closed : BeginsClosed tail) {n : Nat} {g g' : Grammar}
    (echo : Echo tail n g g') (tooMany : SyntaxFault) (each : Echoes tail n 1 item item') :
    Echoes tail n 0 (itemsBeforeParen g tooMany item) (itemsBeforeParen g' tooMany item') := by
  have size := echo.size
  have larger := echo.larger
  refine .check closed (.pure [])
    (items_echoes closed tooMany g.rounds g'.rounds n [] each ?_ ?_ ?_)
    (Nat.zero_le _) fun absurd => by cases absurd
  all_goals
    unfold rounds
    omega

end Lists

section Blocks

variable {α β : Type} {tail : List Token} {n k : Nat}

def within (k : Nat) (R : Reading α) : Reading α := fun ts rest lo hi x =>
  ts.length + rest.length < k → rest ≠ [] → R ts rest lo hi x

theorem atBlockEnd_within {f g : Bool → Parser α}
    (each : ∀ b, Reads n 0 (f b) (within k (Reading.inFront tail (g b)))) :
    Reads n 0 (atBlockEnd >>= f) (within k (Reading.inFront tail (atBlockEnd >>= g))) := by
  have seen (f : Bool → Parser α) (t : Token) (ts : List Token) (last : Token)
      (reported : List Error) (lo : RefId) :
      (atBlockEnd >>= f) ⟨t :: ts, last, reported, lo⟩ =
        f (t.is .rightBrace) ⟨t :: ts, last, reported, lo⟩ := by
    exact Parser.bind_ok (atBlockEnd_apply t ts last reported lo) f
  intro c hc
  rcases c with ⟨_ | ⟨t, us⟩, last, reported, nextId⟩
  · refine ReadsFrom.stay (q := f true) rfl (each true _ hc)
      fun ts rest lo hi x ahead _ _ some => ?_
    exact absurd (List.append_eq_nil_iff.mp ahead.symm).2 some
  · refine ReadsFrom.stay (seen f t us last reported nextId) (each _ _ hc)
      fun ts rest lo hi x ahead read short some last' => ?_
    have read' := read short some last'
    rw [← List.append_assoc, ← ahead, List.cons_append] at read' ⊢
    rw [seen]
    exact read'

theorem step_within {p q : Parser α} {f g : α → Parser β}
    (first : Reads n 0 p fun ts rest lo hi x => ts ≠ [] ∧ Reading.inFront tail q ts rest lo hi x)
    (next : ∀ x, Reads n 0 (f x) (within k (Reading.inFront tail (g x)))) :
    Reads n 0 (p >>= f) (within (k + 1) (Reading.inFront tail (q >>= g))) := by
  refine (first.bind next).weaken ?_
  rintro _ rest lo hi y ⟨a, b, mid, x, rfl, ⟨taken, one⟩, two⟩ short some last
  have shorter : b.length + rest.length < k := by
    have := List.length_pos_iff.mpr taken
    rw [List.length_append] at short
    omega
  have one' := one last
  rw [List.append_assoc] at one'
  rw [List.append_assoc, Parser.bind_ok one']
  exact two shorter some last

theorem close_within {j : Nat} {p q : Parser α} {f g : α → Parser β}
    (first : Reads n 0 p (within k (Reading.inFront tail q))) (enough : n < k)
    (next : ∀ x, Echoes tail n (j + 1) (f x) (g x)) :
    Echoes tail n (j + 1) (p >>= f) (q >>= g) := by
  refine ((first.bounded.bind fun x => Reads.nonempty (next x)).le (Nat.le_refl _)
    (by omega)).weaken ?_
  rintro _ rest lo hi y ⟨a, b, mid, x, rfl, ⟨bound, one⟩, closing, two⟩ last
  have one' := one (by omega) (by simp [closing]) last
  rw [List.append_assoc] at one'
  rw [List.append_assoc, Parser.bind_ok one']
  exact two last

variable {g g' : Grammar}

theorem declarationsUntil_within (echo : Echo tail n g g') :
    ∀ (k k' : Nat) (found : List Stmt), k ≤ k' →
      Reads n 0 (declarationsUntil atBlockEnd g.declaration k found)
        (within k (Reading.inFront tail
          (declarationsUntil atBlockEnd g'.declaration k' found))) := by
  intro k
  induction k with
  | zero =>
    intro k' found _
    exact (Reads.pure _).weaken fun _ _ _ _ _ _ absurd => by omega
  | succ k ih =>
    intro k' found le
    obtain ⟨k', rfl⟩ := Nat.exists_eq_add_of_le' (Nat.le_trans (Nat.le_add_left 1 k) le)
    refine atBlockEnd_within fun b => ?_
    cases b with
    | true => exact Reads.weaken (Echoes.pure _) fun _ _ _ _ _ read _ _ => read
    | false =>
      refine step_within echo.declaration fun o => ?_
      cases o with
      | none => exact ih k' found (by omega)
      | some s => exact ih k' (s :: found) (by omega)

theorem block_echoes (echo : Echo tail n g g') : Echoes tail n 1 g.block g'.block := by
  have size := echo.size
  have larger := echo.larger
  have loop := declarationsUntil_within echo g.rounds g'.rounds [] (by unfold rounds; omega)
  refine close_within loop (by unfold rounds; omega) fun body => ?_
  exact (Echoes.expect .rightBrace _).bind (j := 0) fun _ => .pure body

theorem functionRest_echoes (closed : BeginsClosed tail) (echo : Echo tail n g g')
    (name : Option Token) (routine : Routine) :
    Echoes tail n 3 (functionRest g name routine) (functionRest g' name routine) := by
  refine (itemsBeforeParen_echoes closed echo .tooManyParameters (Echoes.expect _ _)).bind (j := 3)
    fun params => ?_
  refine (Echoes.expect .rightParen _).bind (j := 2) fun _ => ?_
  refine (Echoes.expect .leftBrace _).bind (j := 1) fun _ => ?_
  exact ((block_echoes echo).le (by omega) (Nat.le_refl _)).bind (j := 0) fun body => .pure _

end Blocks

section Expressions

variable {tail : List Token} {n : Nat} {g g' : Grammar}

theorem superAccess_echoes (keyword : Token) :
    Echoes tail n 2 (superAccess keyword) (superAccess keyword) := by
  refine (Echoes.expect .dot _).bind (j := 1) fun _ => ?_
  refine (Echoes.expect .identifier _).bind (j := 0) fun method => ?_
  exact Echoes.freshId.bind (j := 0) fun id => .pure _

theorem primaryFrom_echoes (closed : BeginsClosed tail) (echo : Echo tail n g g') {c : Cursor}
    {t : Token} (some : c.ahead ≠ []) (hc : c.ahead.length ≤ n + 1) :
    ReadsFrom c 1 (primaryFrom g t) (Reading.inFront tail (primaryFrom g' t)) := by
  have behind {k : Nat} {q q' : Parser Expr} (later : Echoes tail n k q q') :
      ReadsFrom c 1 (skip *> q) (Reading.inFront tail (skip *> q')) :=
    Echoes.skip (f := fun _ => q) (g := fun _ => q') some hc (by omega) later
  unfold primaryFrom
  split
  next => exact behind (.pure _)
  next => exact behind (.pure _)
  next => exact behind (.pure _)
  next => exact behind (.pure _)
  next => exact behind (.pure _)
  next => exact behind (Echoes.freshId.map _)
  next => exact behind (Echoes.freshId.map _)
  next => exact behind (superAccess_echoes t)
  next =>
    refine behind (k := 4) ((Echoes.expect .leftParen _).bind (j := 3) fun _ => ?_)
    exact ((functionRest_echoes closed echo none .anonymous).le (by omega) (Nat.le_refl _)).bind
      (j := 0) fun f => .pure _
  next =>
    refine behind (k := 2) (echo.expression.bind (j := 1) fun inner => ?_)
    exact (Echoes.expect .rightParen _).bind (j := 0) fun _ => .pure _
  next => exact Nat.le_refl _

theorem primary_echoes (closed : BeginsClosed tail) (echo : Echo tail n g g') :
    Echoes tail (n + 1) 1 (primary g) (primary g') := by
  intro c hc
  rcases c with ⟨_ | ⟨t, us⟩, last, reported, nextId⟩
  · exact Nat.le_refl _
  · refine ReadsFrom.stay (q := primaryFrom g t) rfl
      (primaryFrom_echoes closed echo (t := t) (by simp) hc)
      fun ts rest lo hi x ahead read last => ?_
    have first : ts ++ (rest ++ tail) = t :: (us ++ tail) := by
      rw [← List.append_assoc, ← ahead]
      rfl
    have read' := read last
    rw [first] at read' ⊢
    exact read'

theorem callRest_echoes (closed : BeginsClosed tail) (echo : Echo tail n g g') (callee : Expr) :
    Echoes tail n 1 (callRest g callee) (callRest g' callee) := by
  refine (itemsBeforeParen_echoes closed echo .tooManyArguments echo.expression).bind (j := 1)
    fun arguments => ?_
  exact (Echoes.expect .rightParen _).bind (j := 0) fun paren => .pure _

theorem suffixes_echoes (closed : BeginsClosed tail) (echo : Echo tail n g g') :
    ∀ (k k' m : Nat) (e : Expr), m ≤ n + 1 → m < k → k ≤ k' →
      Echoes tail m 0 (suffixes g k e) (suffixes g' k' e) := by
  intro k
  induction k with
  | zero => intro k' m e _ enough; omega
  | succ k ih =>
    intro k' m e small enough le
    obtain ⟨k', rfl⟩ := Nat.exists_eq_add_of_le' (Nat.le_trans (Nat.le_add_left 1 k) le)
    refine Echoes.peek closed (fun c hc some => ?_) (.pure e)
    have filled := List.length_pos_iff.mpr some
    have suffix {α : Type} {q q' : Parser α} (node : α → Expr) (later : Echoes tail n 1 q q') :
        ReadsFrom c 0 (skip >>= fun _ => q >>= fun x => suffixes g k (node x))
          (Reading.inFront tail
            (skip >>= fun _ => q' >>= fun x => suffixes g' k' (node x))) := by
      refine Echoes.skip (j := 1) some hc (by omega) ?_
      refine (later.le (by omega) (Nat.le_refl _)).bind (j := 0) fun x => ?_
      exact ih k' _ (node x) (by omega) (by omega) (by omega)
    generalize c.next? = o
    split
    next => exact suffix (fun e' => e') (callRest_echoes closed echo e)
    next => exact suffix (Expr.get e) (Echoes.expect .identifier _)
    next => exact Echoes.pure e c hc

theorem call_echoes (closed : BeginsClosed tail) (echo : Echo tail n g g') :
    Echoes tail (n + 1) 1 (call g) (call g') := by
  have size := echo.size
  have larger := echo.larger
  refine (primary_echoes closed echo).bind (j := 0) fun e => ?_
  exact suffixes_echoes closed echo g.rounds g'.rounds _ e (by omega) (by unfold rounds; omega)
    (by unfold rounds; omega)

theorem unary_echoes (closed : BeginsClosed tail) (echo : Echo tail n g g') :
    ∀ (k k' m : Nat), m ≤ n + 1 → m < k → k ≤ k' → Echoes tail m 1 (unary g k) (unary g' k') := by
  intro k
  induction k with
  | zero => intro k' m _ enough; omega
  | succ k ih =>
    intro k' m small enough le
    obtain ⟨k', rfl⟩ := Nat.exists_eq_add_of_le' (Nat.le_trans (Nat.le_add_left 1 k) le)
    refine Echoes.acceptAny closed (by decide) (fun operator some => ?_)
      ((call_echoes closed echo).le small (Nat.le_refl _))
    exact ((ih k' (m - 1) (by omega) (by omega) (by omega)).le (Nat.le_refl _) (Nat.zero_le _)).bind
      (j := 0) fun e => .pure _

theorem level_rest_echoes (closed : BeginsClosed tail) (level : Level)
    (apart : .semicolon ∉ level.operators) {operand operand' : Parser Expr} :
    ∀ (k k' m : Nat) (left : Expr), Echoes tail m 1 operand operand' → m < k → k ≤ k' →
      Echoes tail m 0 (level.rest operand k left) (level.rest operand' k' left) := by
  intro k
  induction k with
  | zero => intro k' m left _ enough; omega
  | succ k ih =>
    intro k' m left each enough le
    obtain ⟨k', rfl⟩ := Nat.exists_eq_add_of_le' (Nat.le_trans (Nat.le_add_left 1 k) le)
    refine Echoes.acceptAny closed apart (fun operator some => ?_) (.pure left)
    have first := each.le (Nat.sub_le m 1) (Nat.le_refl _)
    refine Echoes.le (first.bind (j := 0) fun right => ?_) (Nat.le_refl _) (Nat.zero_le _)
    exact ih k' _ _ (each.le (by omega) (Nat.le_refl _)) (by omega) (by omega)

theorem operators_echoes (closed : BeginsClosed tail) (echo : Echo tail n g g') :
    Echoes tail (n + 1) 1 (operators g) (operators g') := by
  have size := echo.size
  have larger := echo.larger
  have rounds_le : g.rounds ≤ g'.rounds := by
    unfold rounds
    omega
  have enough : n + 1 < g.rounds := by
    unfold rounds
    omega
  have chains (ls : List Level) (apart : ∀ level ∈ ls, .semicolon ∉ level.operators) :
      Echoes tail (n + 1) 1 (ls.foldr (Level.chain g) (unary g g.rounds))
        (ls.foldr (Level.chain g') (unary g' g'.rounds)) := by
    induction ls with
    | nil => exact unary_echoes closed echo _ _ _ (Nat.le_refl _) enough rounds_le
    | cons level ls ih =>
      have operand := ih fun level' mem => apart level' (List.mem_cons_of_mem _ mem)
      refine operand.bind (j := 0) fun left => ?_
      exact level_rest_echoes closed level (apart level List.mem_cons_self) _ _ _ left
        (operand.le (Nat.sub_le ..) (Nat.le_refl _)) (by omega) rounds_le
  exact chains levels (by simp [levels])

theorem assignTo_echoes (target : Expr) (equals : Token) (value : Expr) :
    Echoes tail n 0 (assignTo target equals value) (assignTo target equals value) := by
  unfold assignTo
  split
  next => exact Echoes.freshId.map _
  next => exact .pure _
  next => exact (Echoes.reportAt equals .invalidTarget).bind (k := 0) (j := 0) fun _ => .pure _

theorem assignment_echoes (closed : BeginsClosed tail) (echo : Echo tail n g g') :
    Echoes tail (n + 1) 1 (assignment g) (assignment g') := by
  refine (operators_echoes closed echo).bind (j := 0) fun target => ?_
  refine Echoes.acceptAny closed (by decide) (fun equals some => ?_) (.pure target)
  refine Echoes.le ((echo.expression.le (Nat.sub_le n 1) (Nat.le_refl _)).bind (j := 0)
    fun value => ?_) (by omega) (Nat.zero_le _)
  exact assignTo_echoes target equals value

end Expressions

section Statements

variable {tail : List Token} {n : Nat} {g g' : Grammar}

theorem closing_echoes {α : Type} {p q : Parser α} {k : Nat} (s : Symbol) (place : Place)
    (node : α → Stmt) (first : Echoes tail n k p q) :
    Echoes tail n (k + 1) (p >>= fun x => expectAt s place >>= fun _ => pure (node x))
      (q >>= fun x => expectAt s place >>= fun _ => pure (node x)) :=
  first.bind (j := 1) fun x => (Echoes.expect s _).bind (j := 0) fun _ => .pure (node x)

theorem expressionStatement_echoes (closed : BeginsClosed tail) (echo : Echo tail n g g') :
    Echoes tail (n + 1) 2 (expressionStatement g) (expressionStatement g') :=
  closing_echoes .semicolon _ .expression (assignment_echoes closed echo)

theorem printStatement_echoes (closed : BeginsClosed tail) (echo : Echo tail n g g') :
    Echoes tail (n + 1) 2 (printStatement g) (printStatement g') :=
  closing_echoes .semicolon _ .print (assignment_echoes closed echo)

theorem varDeclaration_echoes (closed : BeginsClosed tail) (echo : Echo tail n g g') :
    Echoes tail (n + 1) 2 (varDeclaration g) (varDeclaration g') := by
  refine (Echoes.expect .identifier _).bind (j := 1) fun name => ?_
  refine Echoes.acceptAny closed (by decide) (fun equals _ => ?_) ?_
  · have initial := ((assignment_echoes closed echo).map some).le (show n - 1 ≤ n + 1 by omega)
      (Nat.le_refl 1)
    exact (closing_echoes .semicolon _ (Stmt.var name) initial).le (by omega) (Nat.zero_le _)
  · exact closing_echoes .semicolon _ (Stmt.var name) (.pure none)

theorem optionalBefore_echoes (closed : BeginsClosed tail) (echo : Echo tail n g g') (s : Symbol) :
    Echoes tail (n + 1) 0 (optionalBefore g s) (optionalBefore g' s) :=
  .check closed (.pure none) ((assignment_echoes closed echo).map some) (Nat.zero_le _)
    fun _ => Nat.one_pos

theorem forInitializer_echoes (closed : BeginsClosed tail) (echo : Echo tail n g g') :
    Echoes tail (n + 1) 1 (forInitializer g) (forInitializer g') := by
  have expression := ((expressionStatement_echoes closed echo).map some)
  refine Echoes.peek closed (fun c hc filled => ?_) (expression.ended (by omega))
  generalize c.next? = o
  split
  next => exact Echoes.skip (j := 0) filled hc (by omega) (.pure none)
  next =>
    refine Echoes.skip (j := 0) filled hc (by omega) ?_
    exact ((varDeclaration_echoes closed echo).map some).le (by omega) (Nat.zero_le _)
  next => exact (expression.le (Nat.le_refl _) (by omega)) c hc

theorem forStatement_echoes (closed : BeginsClosed tail) (echo : Echo tail n g g') :
    Echoes tail n 3 (forStatement g) (forStatement g') := by
  have part (s : Symbol) := optionalBefore_echoes closed echo s
  refine Echoes.le (k := 1 + (1 + (0 + (1 + (0 + (1 + (1 + 0))))))) ?_ (Nat.le_refl _) (by omega)
  refine (Echoes.expect .leftParen _).bind fun _ => ?_
  refine ((forInitializer_echoes closed echo).le (by omega) (Nat.le_refl _)).bind fun start => ?_
  refine ((part .semicolon).le (by omega) (Nat.le_refl _)).bind fun condition => ?_
  refine (Echoes.expect .semicolon _).bind fun _ => ?_
  refine ((part .rightParen).le (by omega) (Nat.le_refl _)).bind fun increment => ?_
  refine (Echoes.expect .rightParen _).bind fun _ => ?_
  exact (echo.statement.le (by omega) (Nat.le_refl _)).bind fun body => .pure _

theorem conditionAfter_echoes (closed : BeginsClosed tail) (echo : Echo tail n g g')
    (keyword : Symbol) :
    Echoes tail n 3 (conditionAfter g keyword) (conditionAfter g' keyword) := by
  refine (Echoes.expect .leftParen _).bind (j := 2) fun _ => ?_
  refine ((assignment_echoes closed echo).le (by omega) (Nat.le_refl _)).bind (j := 1)
    fun condition => ?_
  exact (Echoes.expect .rightParen _).bind (j := 0) fun _ => .pure condition

theorem ifStatement_echoes (closed : BeginsClosed tail) (echo : Echo tail n g g') :
    Echoes tail n 4 (ifStatement g) (ifStatement g') := by
  refine (conditionAfter_echoes closed echo .ifKw).bind (j := 1) fun condition => ?_
  refine (echo.statement.le (by omega) (Nat.le_refl _)).bind (j := 0) fun thenBranch => ?_
  refine Echoes.acceptAny closed (by decide) (fun _ _ => ?_) (.pure _)
  exact (echo.statement.le (by omega) (Nat.zero_le _)).bind (j := 0) fun elseBranch => .pure _

theorem whileStatement_echoes (closed : BeginsClosed tail) (echo : Echo tail n g g') :
    Echoes tail n 4 (whileStatement g) (whileStatement g') := by
  refine (conditionAfter_echoes closed echo .whileKw).bind (j := 1) fun condition => ?_
  exact (echo.statement.le (by omega) (Nat.le_refl _)).bind (j := 0) fun body => .pure _

theorem breakStatement_echoes (keyword : Token) :
    Echoes tail n 1 (breakStatement keyword) (breakStatement keyword) :=
  (Echoes.expect .semicolon _).bind (j := 0) fun _ => .pure _

theorem returnStatement_echoes (closed : BeginsClosed tail) (echo : Echo tail n g g')
    (keyword : Token) :
    Echoes tail (n + 1) 1 (returnStatement g keyword) (returnStatement g' keyword) :=
  closing_echoes .semicolon _ (Stmt.returnFrom keyword)
    (optionalBefore_echoes closed echo .semicolon)

theorem here_append {c : Cursor} {ts rest us : List Token} {t last : Token} {lo : RefId}
    (ahead : c.ahead = ts ++ rest) (first : c.ahead = t :: us) :
    Cursor.here ⟨ts ++ (rest ++ tail), last, [], lo⟩ = c.here := by
  unfold Cursor.here
  rw [← List.append_assoc, ← ahead, first]
  rfl

theorem statementFrom_echoes (closed : BeginsClosed tail) (echo : Echo tail n g g') {c : Cursor}
    (t : Token) (filled : c.ahead ≠ []) (hc : c.ahead.length ≤ n + 1) (next : Option Symbol) :
    ReadsFrom c 1 (statementFrom g t next) (Reading.inFront tail (statementFrom g' t next)) := by
  have behind {k : Nat} {q q' : Parser Stmt} (later : Echoes tail n k q q') :
      ReadsFrom c 1 (skip >>= fun _ => q) (Reading.inFront tail (skip >>= fun _ => q')) :=
    Echoes.skip (f := fun _ => q) (g := fun _ => q') filled hc (by omega) later
  unfold statementFrom
  split
  next => exact behind (forStatement_echoes closed echo)
  next => exact behind (ifStatement_echoes closed echo)
  next => exact behind (whileStatement_echoes closed echo)
  next => exact behind (breakStatement_echoes t)
  next => exact behind ((returnStatement_echoes closed echo t).le (Nat.le_succ n) (Nat.le_refl _))
  next => exact behind ((block_echoes echo).map Stmt.block)
  next => exact behind ((printStatement_echoes closed echo).le (Nat.le_succ n) (Nat.le_refl _))
  next => exact (expressionStatement_echoes closed echo).le (Nat.le_refl _) (by omega) c hc

theorem statementRule_echoes (closed : BeginsClosed tail) (echo : Echo tail n g g') :
    Echoes tail (n + 1) 1 (statementRule g) (statementRule g') := by
  intro c hc
  cases first : c.ahead with
  | nil =>
    have only : statementRule g c = expressionStatement g c := by
      rw [statementRule_apply]
      unfold Cursor.next?
      rw [first]
      rfl
    refine ReadsFrom.stay (R := Reading.inFront tail (statementRule g')) only ?_
      fun _ _ _ _ _ _ read => read
    exact ReadsFrom.of_end first (by omega) (expressionStatement_echoes closed echo c hc)
  | cons t us =>
    refine ReadsFrom.stay (statementRule_apply g c)
      (statementFrom_echoes closed echo c.here (by simp [first]) hc c.next?)
      fun ts rest lo hi x ahead read last => ?_
    rw [statementRule_apply, Echoes.next?_append ahead first, here_append ahead first]
    exact read last

theorem namedFunction_echoes (closed : BeginsClosed tail) (echo : Echo tail n g g')
    (routine : Routine) : Echoes tail n 5 (namedFunction g routine) (namedFunction g' routine) := by
  refine (Echoes.expect .identifier _).bind (j := 4) fun name => ?_
  refine (Echoes.expect .leftParen _).bind (j := 3) fun _ => ?_
  exact (functionRest_echoes closed echo (some name) routine).le (by omega) (Nat.le_refl _)

theorem methods_within (closed : BeginsClosed tail) (echo : Echo tail n g g') :
    ∀ (k k' : Nat) (found : List Function), k ≤ k' →
      Reads n 0 (methods g k found) (within k (Reading.inFront tail (methods g' k' found))) := by
  intro k
  induction k with
  | zero =>
    intro k' found _
    exact (Reads.pure _).weaken fun _ _ _ _ _ _ absurd => by omega
  | succ k ih =>
    intro k' found le
    obtain ⟨k', rfl⟩ := Nat.exists_eq_add_of_le' (Nat.le_trans (Nat.le_add_left 1 k) le)
    refine atBlockEnd_within fun b => ?_
    cases b with
    | true => exact Reads.weaken (Echoes.pure _) fun _ _ _ _ _ read _ _ => read
    | false =>
      have method := Reads.nonempty (namedFunction_echoes closed echo .method)
      exact step_within (method.le (Nat.le_refl _) (Nat.zero_le _)) fun f => ih k' _ (by omega)

theorem superclassClause_echoes (closed : BeginsClosed tail) :
    Echoes tail n 0 superclassClause superclassClause := by
  refine Echoes.acceptAny closed (by decide) (fun _ _ => ?_) (.pure none)
  refine ((Echoes.expect .identifier _).le (Nat.le_refl _) (Nat.zero_le _)).bind (j := 0)
    fun name => ?_
  exact Echoes.freshId.bind (j := 0) fun id => .pure _

theorem classDeclaration_echoes (closed : BeginsClosed tail) (echo : Echo tail n g g') :
    Echoes tail n 3 (classDeclaration g) (classDeclaration g') := by
  have size := echo.size
  have larger := echo.larger
  have body (m : Nat) (small : m ≤ n) (name : Token) (parent : Option Expr) : Echoes tail m 1
      (methods g g.rounds [] >>= fun found => expectAt .rightBrace .afterClassBody >>= fun _ =>
        pure (Stmt.classDecl name parent found))
      (methods g' g'.rounds [] >>= fun found => expectAt .rightBrace .afterClassBody >>= fun _ =>
        pure (Stmt.classDecl name parent found)) := by
    have loop := methods_within closed echo g.rounds g'.rounds [] (by unfold rounds; omega)
    refine close_within (loop.le small (Nat.le_refl _)) (by unfold rounds; omega) fun found => ?_
    exact (Echoes.expect .rightBrace _).bind (j := 0) fun _ => .pure _
  refine (Echoes.expect .identifier _).bind (j := 2) fun name => ?_
  refine (superclassClause_echoes closed).bind (j := 2) fun parent => ?_
  refine (Echoes.expect .leftBrace _).bind (j := 1) fun _ => ?_
  exact body _ (by omega) name parent

theorem startsFunction_append (closed : BeginsClosed tail) (t : Token) (us : List Token) :
    startsFunction (t :: us ++ tail) = startsFunction (t :: us) := by
  cases us with
  | cons name us => rfl
  | nil =>
    obtain ⟨semicolon, more, rfl, stop⟩ := closed
    have other : semicolon.is .identifier = false :=
      Bool.eq_false_iff.mpr fun name => by cases Token.is_unique stop name
    simp [startsFunction, other]

theorem declarationFrom_echoes (closed : BeginsClosed tail) (echo : Echo tail n g g') {c : Cursor}
    (filled : c.ahead ≠ []) (hc : c.ahead.length ≤ n + 1) (named : Bool) (next : Option Symbol) :
    ReadsFrom c 1 (declarationFrom g named next)
      (Reading.inFront tail (declarationFrom g' named next)) := by
  have behind {k : Nat} {q q' : Parser Stmt} (later : Echoes tail n k q q') :
      ReadsFrom c 1 (skip >>= fun _ => q) (Reading.inFront tail (skip >>= fun _ => q')) :=
    Echoes.skip (f := fun _ => q) (g := fun _ => q') filled hc (by omega) later
  unfold declarationFrom
  cases named with
  | true => exact behind ((namedFunction_echoes closed echo .function).map Stmt.function)
  | false =>
    simp only [Bool.false_eq_true, if_false]
    split
    next => exact behind (classDeclaration_echoes closed echo)
    next => exact behind ((varDeclaration_echoes closed echo).le (Nat.le_succ n) (Nat.le_refl _))
    next => exact statementRule_echoes closed echo c hc

theorem declarationBody_echoes (closed : BeginsClosed tail) (echo : Echo tail n g g') :
    Echoes tail (n + 1) 1 (declarationBody g) (declarationBody g') := by
  intro c hc
  cases first : c.ahead with
  | nil =>
    have only : declarationBody g c = statementRule g c := by
      rw [declarationBody_apply]
      unfold Cursor.next?
      rw [first]
      rfl
    refine ReadsFrom.stay (R := Reading.inFront tail (declarationBody g')) only ?_
      fun _ _ _ _ _ _ read => read
    exact ReadsFrom.of_end first (by omega) (statementRule_echoes closed echo c hc)
  | cons t us =>
    refine ReadsFrom.stay (declarationBody_apply g c)
      (declarationFrom_echoes closed echo (by simp [first]) hc _ c.next?)
      fun ts rest lo hi x ahead read last => ?_
    have starts : startsFunction (ts ++ (rest ++ tail)) = startsFunction c.ahead := by
      rw [← List.append_assoc, ← ahead, first]
      exact startsFunction_append closed t us
    rw [declarationBody_apply, Echoes.next?_append ahead first, starts]
    exact read last

theorem declarationRule_echoes (closed : BeginsClosed tail) (echo : Echo tail n g g') :
    Reads (n + 1) 0 (declarationRule g) fun ts rest lo hi x =>
      ts ≠ [] ∧ Reading.inFront tail (declarationRule g') ts rest lo hi x := by
  intro c hc
  have body := Reads.nonempty (declarationBody_echoes closed echo) c hc
  unfold ReadsFrom declarationRule at *
  cases result : declarationBody g c with
  | ok s c' =>
    rw [result] at body
    refine ⟨by simp only at body ⊢; omega, fun clean => ?_⟩
    obtain ⟨before, ts, ahead, taken, read⟩ := body.2 clean
    refine ⟨before, ts, ahead, taken, fun last => ?_⟩
    dsimp only
    rw [read last]
  -- A declaration that was given up has been reported, so the end is not clean.
  | error e c' =>
    rw [result] at body
    refine ⟨Nat.le_trans (synchronize_length_le _) body, fun clean => ?_⟩
    rw [synchronize_reported] at clean
    cases clean

end Statements

theorem upTo_echo {tail : List Token} (closed : BeginsClosed tail) {n n' : Nat} (le : n ≤ n') :
    Echo tail n (upTo n) (upTo n') := by
  have size (n : Nat) : (upTo n).size = n := by cases n <;> rfl
  induction n generalizing n' with
  | zero =>
    refine ⟨Nat.le_refl _, ?_, .fail _, .fail _, fun c _ => ?_⟩
    · rw [size, size]
      exact le
    · exact ⟨Nat.le_refl _, fun clean => by cases clean⟩
  | succ n ih =>
    obtain ⟨n', rfl⟩ := Nat.exists_eq_add_of_le' (Nat.le_trans (Nat.le_add_left 1 n) le)
    have inner := ih (show n ≤ n' by omega)
    exact ⟨Nat.le_refl _, le, assignment_echoes closed inner, statementRule_echoes closed inner,
      declarationRule_echoes closed inner⟩

theorem declarationRule_print {g : Grammar} {ts more : List Token} {keyword semicolon last : Token}
    {lo hi : RefId} {e : Expr} (hk : keyword.is .printKw) (hs : semicolon.is .semicolon)
    (value : assignment g ⟨ts ++ semicolon :: more, last, [], lo⟩ =
      .ok e ⟨semicolon :: more, last, [], hi⟩) :
    declarationRule g ⟨keyword :: (ts ++ semicolon :: more), last, [], lo⟩ =
      .ok (some (.print e)) ⟨more, last, [], hi⟩ := by
  have other : keyword.is .funKw = false :=
    Bool.eq_false_iff.mpr fun funKw => by cases Token.is_unique hk funKw
  have unnamed : startsFunction (keyword :: (ts ++ semicolon :: more)) = false := by
    cases ts <;> simp [startsFunction, other]
  have printed : printStatement g ⟨ts ++ semicolon :: more, last, [], lo⟩ =
      .ok (.print e) ⟨more, last, [], hi⟩ := by
    have closed : expectAt .semicolon .afterValue ⟨semicolon :: more, last, [], hi⟩ =
        .ok semicolon ⟨more, last, [], hi⟩ := by
      unfold expectAt
      rw [expect_apply, if_pos hs]
    exact (Parser.bind_ok value _).trans (Parser.bind_ok closed _)
  have stated : statementRule g ⟨keyword :: (ts ++ semicolon :: more), last, [], lo⟩ =
      .ok (.print e) ⟨more, last, [], hi⟩ := by
    rw [statementRule_apply, next?_cons hk]
    exact printed
  have declared : declarationBody g ⟨keyword :: (ts ++ semicolon :: more), last, [], lo⟩ =
      .ok (.print e) ⟨more, last, [], hi⟩ := by
    rw [declarationBody_apply, unnamed, next?_cons hk]
    exact stated
  unfold declarationRule
  rw [declared]

end Grammar

end Quill
