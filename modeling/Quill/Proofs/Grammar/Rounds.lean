import Quill.Proofs.Grammar.Reading

set_option autoImplicit false

namespace Quill

structure Cursor.Onward (c c' : Cursor) : Prop where
  ahead : c'.ahead <:+ c.ahead
  last : c'.last = c.last

namespace Cursor.Onward

variable {c c' c'' : Cursor}

theorem refl (c : Cursor) : c.Onward c :=
  ⟨List.suffix_rfl, rfl⟩

theorem trans (first : c.Onward c') (second : c'.Onward c'') : c.Onward c'' :=
  ⟨second.ahead.trans first.ahead, second.last.trans first.last⟩

theorem length_le (onward : c.Onward c') : c'.ahead.length ≤ c.ahead.length :=
  onward.ahead.length_le

theorem resume (skipped : Token) (ts : List Token) : Cursor.resume skipped ts <:+ ts := by
  induction ts generalizing skipped with
  | nil => exact List.suffix_rfl
  | cons t rest ih =>
    unfold Cursor.resume
    split
    · exact List.suffix_rfl
    · exact (ih t).trans (List.suffix_cons t rest)

theorem synchronize (c : Cursor) : c.Onward c.synchronize := by
  rcases c with ⟨_ | ⟨t, rest⟩, last, reported, nextId⟩
  · exact refl _
  · exact ⟨(resume t rest).trans (List.suffix_cons t rest), rfl⟩

end Cursor.Onward

theorem Cursor.synchronize_lt {c : Cursor} (some : c.ahead ≠ []) :
    c.synchronize.ahead.length < c.ahead.length := by
  rcases c with ⟨_ | ⟨t, rest⟩, last, reported, nextId⟩
  · exact absurd rfl some
  -- The token at which the error was found is skipped, wherever reading resumes.
  · have shorter := (Onward.resume t rest).length_le
    change (Cursor.resume t rest).length < (t :: rest).length
    rw [List.length_cons]
    omega

namespace Parser

variable {α β : Type}

variable {p : Parser α} {c c' : Cursor}

theorem after_ok {x : α} (run : p c = .ok x c') : p.after c = c' := by
  simp [after, run]

theorem after_error {e : Error} (run : p c = .error e c') : p.after c = c' := by
  simp [after, run]

theorem check_look (s : Symbol) (c : Cursor) : ∃ b, check s c = .ok b c := by
  rcases c with ⟨_ | ⟨t, us⟩, last, reported, nextId⟩
  · exact ⟨false, rfl⟩
  · exact ⟨t.is s, rfl⟩

theorem peek?_look (c : Cursor) : peek? c = .ok c.next? c := by
  rcases c with ⟨_ | ⟨⟨kind, lexeme, line⟩, rest⟩, last, reported, nextId⟩
  · rfl
  · cases kind <;> rfl

end Parser

structure AgreesFrom {α : Type} (c : Cursor) (n : Nat) (K : α → Nat) (p q : Parser α) : Prop where
  onward : c.Onward (p.after c)
  same : c.ahead.length < n → p c = q c
  reads : c.ahead.length < n → ∀ x c', p c = .ok x c' → c'.ahead.length + K x ≤ c.ahead.length

def Agrees {α : Type} (n : Nat) (K : α → Nat) (p q : Parser α) : Prop :=
  ∀ c, AgreesFrom c n K p q

namespace AgreesFrom

variable {α β : Type} {c : Cursor} {n : Nat} {K : α → Nat} {p q : Parser α}

theorem le {n' : Nat} {K' : α → Nat} (agrees : AgreesFrom c n K p q) (hn : n' ≤ n)
    (hK : ∀ x, K' x ≤ K x) : AgreesFrom c n' K' p q := by
  refine ⟨agrees.onward, fun short => agrees.same (by omega), fun short x c' run => ?_⟩
  have read := agrees.reads (by omega) x c' run
  have fewer := hK x
  omega

theorem bind {J : β → Nat} {f g : α → Parser β} (first : AgreesFrom c n K p q)
    (next : ∀ x c', p c = .ok x c' → AgreesFrom c' (n - K x) (fun y => J y - K x) (f x) (g x)) :
    AgreesFrom c n J (p >>= f) (q >>= g) := by
  have onward := first.onward
  cases run : p c with
  | error e c' =>
    rw [Parser.after_error run] at onward
    have whole := Parser.bind_error run f
    refine ⟨by rwa [Parser.after_error whole], fun short => ?_, fun _ x c'' absurd => ?_⟩
    · rw [whole, Parser.bind_error (first.same short ▸ run) g]
    · rw [whole] at absurd
      cases absurd
  | ok x c' =>
    rw [Parser.after_ok run] at onward
    have whole := Parser.bind_ok run f
    have later := next x c' run
    -- What the first rule has read is not there for the second one.
    have left (short : c.ahead.length < n) : c'.ahead.length < n - K x := by
      have read := first.reads short x c' run
      omega
    refine ⟨?_, fun short => ?_, fun short y c'' run' => ?_⟩
    · have same : (p >>= f).after c = (f x).after c' := by
        unfold Parser.after
        rw [whole]
      rw [same]
      exact onward.trans later.onward
    · rw [whole, Parser.bind_ok (first.same short ▸ run) g]
      exact later.same (left short)
    · rw [whole] at run'
      have read := first.reads short x c' run
      have read' : c''.ahead.length + (J y - K x) ≤ c'.ahead.length :=
        later.reads (left short) y c'' run'
      omega

theorem stay {r : Parser α} {x : α} {c' : Cursor} (run : r c = .ok x c')
    (ahead : c'.ahead = c.ahead) (last : c'.last = c.last) (none : K x = 0) :
    AgreesFrom c n K r r := by
  refine ⟨?_, fun _ => rfl, fun _ y c'' run' => ?_⟩
  · rw [Parser.after_ok run]
    exact ⟨ahead ▸ List.suffix_rfl, last⟩
  · rw [run] at run'
    cases run'
    rw [ahead, none]
    exact Nat.le_refl _

theorem pure {x : α} (none : K x = 0) : AgreesFrom c n K (Pure.pure x) (Pure.pure x) :=
  stay rfl rfl rfl none

theorem of_eq {r s : Parser α} (left : p c = r c) (right : q c = s c)
    (agrees : AgreesFrom c n K r s) : AgreesFrom c n K p q := by
  refine ⟨?_, fun short => ?_, fun short x c' run => ?_⟩
  · unfold Parser.after
    rw [left]
    exact agrees.onward
  · rw [left, right]
    exact agrees.same short
  · rw [left] at run
    exact agrees.reads short x c' run

theorem look {J : β → Nat} {x : α} {f g : α → Parser β} {r : Parser α} (run : r c = .ok x c)
    (later : AgreesFrom c n J (f x) (g x)) : AgreesFrom c n J (r >>= f) (r >>= g) := by
  have here : AgreesFrom c n (fun _ => 0) r r := stay run rfl rfl rfl
  refine here.bind fun y c' run' => ?_
  rw [run] at run'
  cases run'
  exact later

theorem skip {J : α → Nat} {f g : Unit → Parser α} (some : c.ahead ≠ [])
    (later : Agrees (n - 1) (fun y => J y - 1) (f ()) (g ())) :
    AgreesFrom c n J (Parser.skip >>= f) (Parser.skip >>= g) := by
  have first : AgreesFrom c n (fun _ => 1) Parser.skip Parser.skip := by
    refine ⟨⟨List.tail_suffix _, rfl⟩, fun _ => rfl, fun _ x c' run => ?_⟩
    cases run
    have filled := List.length_pos_iff.mpr some
    change c.ahead.tail.length + 1 ≤ c.ahead.length
    rw [List.length_tail]
    omega
  exact first.bind fun _ c' _ => later c'

end AgreesFrom

namespace Agrees

variable {α β : Type} {n : Nat} {K : α → Nat} {J : β → Nat} {p q : Parser α}

theorem le {n' : Nat} {K' : α → Nat} (agrees : Agrees n K p q) (hn : n' ≤ n)
    (hK : ∀ x, K' x ≤ K x) : Agrees n' K' p q :=
  fun c => (agrees c).le hn hK

theorem pure {x : α} (none : K x = 0) : Agrees n K (Pure.pure x) (Pure.pure x) :=
  fun _ => .pure none

theorem fail (fault : SyntaxFault) : Agrees n K (Parser.fail fault) (Parser.fail fault) := by
  intro c
  refine ⟨.refl c, fun _ => rfl, fun _ y c' run => ?_⟩
  cases run

theorem bind {f g : α → Parser β} (first : Agrees n K p q)
    (next : ∀ x, Agrees (n - K x) (fun y => J y - K x) (f x) (g x)) :
    Agrees n J (p >>= f) (q >>= g) :=
  fun c => (first c).bind fun x c' _ => next x c'

theorem map (f : α → β) (first : Agrees n (fun x => J (f x)) p q) :
    Agrees n J (f <$> p) (f <$> q) := by
  rw [map_eq_pure_bind, map_eq_pure_bind]
  exact first.bind fun x => .pure (Nat.sub_self _)

theorem freshId : Agrees n (fun _ => 0) Parser.freshId Parser.freshId :=
  fun _ => .stay rfl rfl rfl rfl

theorem reportAt (t : Token) (fault : SyntaxFault) :
    Agrees n (fun _ => 0) (Parser.reportAt t fault) (Parser.reportAt t fault) :=
  fun _ => .stay rfl rfl rfl rfl

theorem reportHere (fault : SyntaxFault) :
    Agrees n (fun _ => 0) (Parser.reportHere fault) (Parser.reportHere fault) :=
  fun _ => .stay rfl rfl rfl rfl

theorem accepts (symbols : List Symbol) :
    Agrees n (fun o : Option Token => if o.isSome then 1 else 0) (Parser.acceptAny? symbols)
      (Parser.acceptAny? symbols) := by
  intro c
  rcases c with ⟨_ | ⟨t, us⟩, last, reported, nextId⟩
  · exact .stay (x := none) rfl rfl rfl rfl
  · by_cases hit : symbols.any t.is
    · have run : Parser.acceptAny? symbols ⟨t :: us, last, reported, nextId⟩ =
          .ok (some t) ⟨us, last, reported, nextId⟩ := by
        simp [Parser.acceptAny?, hit]
      refine ⟨?_, fun _ => rfl, fun _ y c' run' => ?_⟩
      · rw [Parser.after_ok run]
        exact ⟨List.suffix_cons t us, rfl⟩
      · rw [run] at run'
        cases run'
        exact Nat.le_refl _
    · have run : Parser.acceptAny? symbols ⟨t :: us, last, reported, nextId⟩ =
          .ok none ⟨t :: us, last, reported, nextId⟩ := by
        simp [Parser.acceptAny?, hit]
      exact .stay run rfl rfl rfl

theorem acceptAny {symbols : List Symbol} {f g : Option Token → Parser β}
    (taken : ∀ t, Agrees (n - 1) (fun y => J y - 1) (f (some t)) (g (some t)))
    (left : Agrees n J (f none) (g none)) :
    Agrees n J (Parser.acceptAny? symbols >>= f) (Parser.acceptAny? symbols >>= g) := by
  apply (accepts symbols).bind
  rintro (_ | t)
  · exact left
  · exact taken t

theorem expect (s : Symbol) (fault : SyntaxFault) :
    Agrees n (fun _ => 1) (Parser.expect s fault) (Parser.expect s fault) :=
  acceptAny (fun _ => pure rfl) (fail fault)

theorem check {s : Symbol} {f g : Bool → Parser β} (each : ∀ b, Agrees n J (f b) (g b)) :
    Agrees n J (Parser.check s >>= f) (Parser.check s >>= g) := by
  intro c
  obtain ⟨b, run⟩ := Parser.check_look s c
  exact .look run (each b c)

theorem peek {f g : Option Symbol → Parser β}
    (each : ∀ c : Cursor, AgreesFrom c n J (f c.next?) (g c.next?)) :
    Agrees n J (Parser.peek? >>= f) (Parser.peek? >>= g) :=
  fun c => .look (Parser.peek?_look c) (each c)

end Agrees

inductive Turn (σ β : Type) where
  | again (state : σ)
  | leave (result : β)

def Turn.least {σ β : Type} (k : Nat) : Turn σ β → Nat
  | .again _ => 1
  | .leave _ => k

inductive Comes {σ β : Type} (round : σ → Parser (Turn σ β)) :
    σ → Cursor → EStateM.Result Error Cursor β → Prop where
  | leave {a : σ} {c c' : Cursor} {x : β} (run : round a c = .ok (.leave x) c') :
    Comes round a c (.ok x c')
  | fail {a : σ} {c c' : Cursor} {e : Error} (run : round a c = .error e c') :
    Comes round a c (.error e c')
  | again {a a' : σ} {c c' : Cursor} {r : EStateM.Result Error Cursor β}
    (run : round a c = .ok (.again a') c') (later : Comes round a' c' r) : Comes round a c r

def Unrolls {σ β : Type} (round : σ → Parser (Turn σ β)) (loop : Nat → σ → Parser β) : Prop :=
  ∀ n a, loop (n + 1) a = round a >>= fun
    | .again a' => loop n a'
    | .leave x => pure x

section Loops

variable {σ β : Type} {round round' : σ → Parser (Turn σ β)} {loop loop' : Nat → σ → Parser β}
  {a : σ} {c : Cursor} {n k : Nat}

theorem Comes.unique {r r' : EStateM.Result Error Cursor β} (one : Comes round a c r)
    (other : Comes round a c r') : r = r' := by
  induction one with
  | leave run | fail run =>
    cases other <;> simp_all
  | again run later ih =>
    cases other with
    | leave run' | fail run' => simp_all
    | again run' later' =>
      rw [run] at run'
      cases run'
      exact ih later'

def Advances (n : Nat) (round : σ → Parser (Turn σ β)) : Prop :=
  ∀ a c a' c', c.ahead.length < n → round a c = .ok (.again a') c' →
    c'.ahead.length < c.ahead.length

theorem Agrees.advances (each : ∀ a, Agrees n (Turn.least k) (round a) (round' a)) :
    Advances n round' := by
  intro a c a' c' short run
  rw [← (each a c).same short] at run
  exact (each a c).reads short _ _ run

theorem Unrolls.comes (unrolls : Unrolls round loop) (advances : Advances n round) {s : Nat}
    (ends : ∀ a (c : Cursor), c.ahead.length < s → Comes round a c (loop 0 a c)) {rounds : Nat}
    (short : c.ahead.length < n) (enough : c.ahead.length < rounds + s) :
    Comes round a c (loop rounds a c) := by
  induction rounds generalizing a c with
  | zero => exact ends a c (by omega)
  | succ rounds ih =>
    rw [unrolls]
    cases run : round a c with
    | error e c' =>
      rw [Parser.bind_error run]
      exact .fail run
    | ok turn c' =>
      rw [Parser.bind_ok run]
      cases turn with
      | leave x => exact .leave run
      | again a' =>
        have read := advances a c a' c' short run
        exact .again run (ih (by omega) (by omega))

theorem Comes.agree {r : EStateM.Result Error Cursor β}
    (each : ∀ a, Agrees n (Turn.least k) (round a) (round' a)) (short : c.ahead.length < n)
    (comes : Comes round' a c r) : Comes round a c r := by
  induction comes with
  | leave run =>
    rw [← (each _ _).same short] at run
    exact .leave run
  | fail run =>
    rw [← (each _ _).same short] at run
    exact .fail run
  | again run later ih =>
    -- The next round has fewer tokens ahead, so the rounds agree there as well.
    have read := Agrees.advances each _ _ _ _ short run
    rw [← (each _ _).same short] at run
    exact .again run (ih (by omega))

theorem Comes.reads {r : EStateM.Result Error Cursor β}
    (each : ∀ a, Agrees n (Turn.least k) (round a) (round' a)) (short : c.ahead.length < n)
    (comes : Comes round a c r) {x : β} {c' : Cursor} (result : r = .ok x c') :
    c'.ahead.length + k ≤ c.ahead.length := by
  induction comes with
  | leave run =>
    cases result
    exact (each _ _).reads short _ _ run
  | fail run => cases result
  | again run later ih =>
    have read := (each _ _).reads short _ _ run
    have read' := ih (by omega) result
    omega

theorem Unrolls.onward (unrolls : Unrolls round loop)
    (each : ∀ a, Agrees n (Turn.least k) (round a) (round' a))
    (bottom : ∀ a (c : Cursor), c.Onward ((loop 0 a).after c)) (rounds : Nat) (a : σ)
    (c : Cursor) : c.Onward ((loop rounds a).after c) := by
  induction rounds generalizing a c with
  | zero => exact bottom a c
  | succ rounds ih =>
    have onward := (each a c).onward
    unfold Parser.after at onward ⊢
    rw [unrolls]
    cases run : round a c with
    | error e c' =>
      rw [run] at onward
      rw [Parser.bind_error run]
      exact onward
    | ok turn c' =>
      rw [run] at onward
      rw [Parser.bind_ok run]
      cases turn with
      | leave x => exact onward
      | again a' => exact onward.trans (ih a' c')

theorem Unrolls.agrees (unrolls : Unrolls round loop) (unrolls' : Unrolls round' loop')
    (each : ∀ a, Agrees n (Turn.least k) (round a) (round' a))
    (bottom : ∀ a (c : Cursor), c.Onward ((loop 0 a).after c)) {rounds rounds' : Nat}
    (enough : n ≤ rounds) (enough' : n ≤ rounds') (a : σ) :
    Agrees n (fun _ => k) (loop rounds a) (loop' rounds' a) := by
  have advances : Advances n round := fun a c a' c' short run =>
    (each a c).reads short _ _ run
  intro c
  have one (short : c.ahead.length < n) : Comes round a c (loop rounds a c) :=
    unrolls.comes (s := 0) advances (by omega) short (by omega)
  have other (short : c.ahead.length < n) : Comes round' a c (loop' rounds' a c) :=
    unrolls'.comes (s := 0) (Agrees.advances each) (by omega) short (by omega)
  refine ⟨unrolls.onward each bottom rounds a c, fun short => ?_, fun short x c' run => ?_⟩
  -- The outcome of the second loop is one of the first loop's rounds, and they have no other.
  · exact (one short).unique ((other short).agree each short)
  · exact (one short).reads each short run

end Loops

end Quill
