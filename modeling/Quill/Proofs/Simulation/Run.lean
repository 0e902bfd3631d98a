import Quill.Proofs.Simulation.Statements

set_option autoImplicit false

namespace Quill

def Moment.Declares (a : Moment) (s : ScopeId) (x : String) : Prop :=
  ∃ name e, a.task = .stmt (.var name (some e)) ∧ a.machine.scope = s ∧ name.lexeme = x

/-- Names whose initializer is being evaluated around a moment, or never came to an end before. -/
def Awaited (past : Pending) (around : List Moment) : Pending :=
  fun s x => past s x ∨ ∃ u ∈ around, u.Declares s x

namespace Episode

def CutOff (r : Episode) (s : ScopeId) (x : String) : Prop :=
  ∃ n name e m around halt m', r.Path (⟨n + 1, .stmt (.var name (some e)), m⟩ :: around) ∧
    (Evaluator.withFuel n).eval e m = .error halt m' ∧ m.scope = s ∧ name.lexeme = x

/-- The run executes a class declaration whose superclass turns out to be some class, and opens a
scope for it then. -/
def Opens (r : Episode) (s : ScopeId) (c : ClassId) (declaration : Stmt) : Prop :=
  ∃ n m around name e methods m' m'', declaration = .classDecl name (some e) methods ∧
    r.Path (⟨n, .expr e, m'⟩ :: ⟨n + 1, .stmt declaration, m⟩ :: around) ∧
    (Evaluator.withFuel n).eval e m' = .ok (.classRef c) m'' ∧ m''.heap.scopes.size = s

/-- The run comes to a name before there is a value for it. -/
def Premature (r : Episode) (past : Pending) : Prop :=
  ∃ n t m around id name m', r.Path (⟨n + 1, t, m⟩ :: around) ∧
    t.Touches (.withFuel n) m id name m' ∧ m'.Misses (Awaited past around) id name

end Episode

namespace Task

def piece? : Task → Option Piece
  | expr e => some (.expr e)
  | stmt s => some (.stmt s)
  | call .. | act .. => none

theorem own_of_piece {t : Task} {p : Piece} (piece : t.piece? = some p) : t.Own := by
  cases t with
  | act => cases piece
  | _ => trivial

def Suits (S : Setting) (p : Pending) (v : Visit) :
    (t : Task) → World → t.Result → Machine → Prop
  | expr _ => fun w (value : Value) m => value.Valid S p w m.heap
  | stmt _ => fun w (flow : Flow) m => flow.Suits S p w m v
  | call .. | act .. => fun _ _ _ => True

end Task

namespace Faithful

variable {T : Terms} {ev : Evaluator} {t : Task} {v : Visit} {w : World} {m : Machine}

theorem of_answer (answer : ∀ t v w m, t.piece? = some v.piece →
      Here T.setting T.pending w m v →
        Keeps T (ev.answer t) w m (t.Suits T.setting T.pending v)) : Faithful T ev := by
  constructor
  · intro e v w m piece here
    exact answer (.expr e) v w m (congrArg some piece.symm) here
  · intro s v w m piece here
    exact answer (.stmt s) v w m (congrArg some piece.symm) here

theorem rule (faithful : Faithful (T.during t m) ev) (accounts : Accounts T ev t m)
    (piece : t.piece? = some v.piece) (here : Here T.setting T.pending w m v) :
    Keeps T (ev.rule t) w m (t.Suits T.setting T.pending v) := by
  cases t with
  | expr e => exact evalRule faithful accounts (Option.some.inj piece).symm here
  | stmt s => exact execRule faithful accounts (Option.some.inj piece).symm here
  | call | act => cases piece

end Faithful

theorem Awaited.during (past : Pending) (a : Moment) (around : List Moment) :
    (Awaited past around).during a.task a.machine = Awaited past (a :: around) := by
  funext s x
  refine propext ((Pending.during_iff _ a.task a.machine s x).trans ?_)
  change _ ∨ a.Declares s x ↔ _
  simp only [Awaited, List.mem_cons, exists_eq_or_imp]
  rw [or_comm (a := a.Declares s x), or_assoc]

structure Episode.Covered (r : Episode) (S : Setting) (past lost : Pending) (premature : Prop) :
    Prop where
  lost : ∀ s x, r.CutOff s x → lost s x
  premature : r.Premature past → premature
  made : ∀ s c declaration, r.Opens s c declaration → S.Made s c declaration

theorem Keeps.congr {α : Type} {T : Terms} {x y : Run α} {w : World} {m : Machine}
    {Q : World → α → Machine → Prop} (same : y m = x m) (keeps : Keeps T x w m Q) :
    Keeps T y w m Q := by
  unfold Keeps at keeps ⊢
  rw [same]
  exact keeps

namespace Episode

variable {r : Episode} {S : Setting} {past lost : Pending} {premature : Prop}

theorem Covered.accounts (covered : r.Covered S past lost premature) {n : Nat} {t : Task}
    {m : Machine} {around : List Moment} (path : r.Path (⟨n + 1, t, m⟩ :: around)) {ev : Evaluator}
    (real : ∀ e m₁ v m₂, ev.eval e m₁ = .ok v m₂ → (Evaluator.withFuel n).eval e m₁ = .ok v m₂ ∧
      Moment.Part ⟨n, .expr e, m₁⟩ ⟨n + 1, t, m⟩)
    (cut : ∀ name e halt m', t = .stmt (.var name (some e)) → ev.eval e m = .error halt m' →
      lost m.scope name.lexeme) :
    Accounts ⟨S, Awaited past around, lost, premature⟩ ev t m := by
  refine ⟨fun id name m' touches misses => ?_, cut, fun name e methods m' c m'' same result => ?_⟩
  · refine covered.premature ⟨n, t, m, around, id, name, m', path, ?_, misses⟩
    rcases touches with ⟨same, rfl⟩ | ⟨e, v, same, result⟩
    · exact .inl ⟨same, rfl⟩
    · exact .inr ⟨e, v, same, (real e m v m' result).1⟩
  · obtain ⟨result', part⟩ := real e m' _ m'' result
    subst same
    exact covered.made _ _ _ ⟨n, m, around, name, e, methods, m', m'', rfl, .part path part, result', rfl⟩

theorem comesTo_initializer (ev : Evaluator) (name : Token) (e : Expr) (m : Machine) :
    ComesTo (fun ev => ev.rule (.stmt (.var name (some e)))) ev m (.expr e) m :=
  .bind (.task (.expr e))

theorem Covered.keeps (covered : r.Covered S past lost premature) {n : Nat} {t : Task}
    {m : Machine} {around : List Moment} (path : r.Path (⟨n, t, m⟩ :: around)) {v : Visit}
    {w : World} (piece : t.piece? = some v.piece) (here : Here S (Awaited past around) w m v) :
    Keeps ⟨S, Awaited past around, lost, premature⟩ ((Evaluator.withFuel n).answer t) w m
      (t.Suits S (Awaited past around) v) := by
  induction n generalizing t m around v w with
  | zero =>
    exact .of_error (Evaluator.answer_withFuel_zero t m) (.refl w m) (Keeps.left here.stands) trivial
  | succ n ih =>
    -- The evaluator is cut down to what the run comes to; of that the induction hypothesis is true.
    let comes := ComesTo (fun ev => ev.rule t) (Evaluator.withFuel n) m
    let ev := (Evaluator.withFuel n).only comes
    have same : (Evaluator.withFuel (n + 1)).answer t m = ev.rule t m :=
      (Evaluator.answer_withFuel_succ n t m).trans ((Dialogic.rule (Task.own_of_piece piece)).only m).symm
    have faithful : Faithful (Terms.during ⟨S, Awaited past around, lost, premature⟩ t m) ev := by
      refine .of_answer fun t' v' w' m' piece' here' => ?_
      unfold Terms.during at here' ⊢
      rw [Awaited.during past ⟨n + 1, t, m⟩ around] at here' ⊢
      by_cases asked : comes t' m'
      · exact .congr (Evaluator.answer_only asked) (ih (.part path ⟨rfl, asked⟩) piece' here')
      · exact .of_error (Evaluator.answer_only_of_not asked) (.refl w' m') (Keeps.left here'.stands)
          trivial
    refine .congr same (faithful.rule (covered.accounts path ?_ ?_) piece here)
    · intro e m₁ value m₂ result
      by_cases asked : comes (.expr e) m₁
      · exact ⟨(Evaluator.answer_only asked).symm.trans result, rfl, asked⟩
      · have fails : ev.eval e m₁ = .error .outOfFuel m₁ := Evaluator.answer_only_of_not asked
        rw [fails] at result
        cases result
    · rintro name e halt m' rfl fails
      have asked : comes (.expr e) m := comesTo_initializer _ name e m
      have fails' : (Evaluator.withFuel n).eval e m = .error halt m' :=
        (Evaluator.answer_only asked).symm.trans fails
      exact covered.lost _ _ ⟨n, name, e, m, around, halt, m', path, fails', rfl, rfl⟩

end Episode

theorem ComesTo.here {α : Type} {x : Evaluator → Run α} {E : Evaluator} {m m₁ : Machine} {t : Task}
    {w : World} {Q : World → α → Machine → Prop} (comes : ComesTo x E m t m₁) (T T' : Terms)
    {P : Prop} (dialogic : Dialogic E.rounds P x)
    (keeps : ∀ ev, Faithful T' ev →
      (∀ e m₁ v m₂, ev.eval e m₁ = .ok v m₂ →
        E.eval e m₁ = .ok v m₂ ∧ ComesTo x E m (.expr e) m₁) → Keeps T (x ev) w m Q)
    (others : ∀ t' v w' m', ComesTo x E m t' m' → t'.piece? = some v.piece →
      Here T'.setting T'.pending w' m' v →
        Keeps T' (E.answer t') w' m' (t'.Suits T'.setting T'.pending v)) :
    ∃ v w', t.piece? = some v.piece ∧ Here T'.setting T'.pending w' m₁ v := by
  by_contra astray
  -- If it were not, it could fail there in a way that is never allowed without a breach of the
  -- terms, and the whole run would fail with it.
  let E' := E.cut t m₁ (.error (.internal .dangling)) m₁
  let asked := ComesTo x E' m
  let ev := E'.only asked
  have dialogic' : Dialogic E'.rounds P x := dialogic
  have uncut {t' : Task} {m' : Machine} (other : ¬ (t' = t ∧ m' = m₁)) (h : asked t' m') :
      ev.answer t' m' = E.answer t' m' ∧ ComesTo x E m t' m' :=
    ⟨(Evaluator.answer_only h).trans (Evaluator.answer_cut_of_ne other), h.of_cut dialogic⟩
  have faithful : Faithful T' ev := by
    refine .of_answer fun t' v w' m' piece here => ?_
    by_cases h : asked t' m'
    · have other : ¬ (t' = t ∧ m' = m₁) := by
        rintro ⟨rfl, rfl⟩
        exact astray ⟨v, w', piece, here⟩
      exact .congr (uncut other h).1 (others t' v w' m' (uncut other h).2 piece here)
    · exact .of_error (Evaluator.answer_only_of_not h) (.refl w' m') (Keeps.left here.stands) trivial
  have kept := keeps ev faithful fun e m₂ v m₃ result => by
    by_cases h : asked (.expr e) m₂
    · by_cases same : Task.expr e = t ∧ m₂ = m₁
      · obtain ⟨rfl, rfl⟩ := same
        have fails : ev.eval e m₂ = .error (.error (.internal .dangling)) m₂ :=
          (Evaluator.answer_only h).trans Evaluator.answer_cut_self
        rw [fails] at result
        cases result
      · exact ⟨(uncut same h).1.symm.trans result, (uncut same h).2⟩
    · have fails : ev.eval e m₂ = .error .outOfFuel m₂ := Evaluator.answer_only_of_not h
      rw [fails] at result
      cases result
  obtain ⟨m'', failed⟩ := comes (.error (.internal .dangling)) m₁
  have same : x ev m = .error (.error (.internal .dangling)) m'' :=
    (dialogic'.only m).trans failed
  obtain ⟨-, -, -, allowed⟩ := kept.of_result_error same
  exact allowed

namespace Episode

variable {r : Episode} {S : Setting} {past lost : Pending} {premature : Prop} {w : World}

theorem Covered.lax (covered : r.Covered S past lost premature) :
    r.Covered S past (fun _ _ => True) premature :=
  ⟨fun _ _ _ => trivial, covered.premature, covered.made⟩

theorem Covered.here_part (covered : r.Covered S past lost premature) {a b : Moment}
    {around : List Moment} (path : r.Path (b :: around)) (part : a.Part b) {v : Visit}
    (piece : b.task.piece? = some v.piece) (here : Here S (Awaited past around) w b.machine v) :
    ∃ v' w', a.task.piece? = some v'.piece ∧
      Here S (Awaited past (b :: around)) w' a.machine v' := by
  have lax := covered.lax
  obtain ⟨_, t, m⟩ := b
  obtain ⟨n, t₁, m₁⟩ := a
  obtain ⟨rfl, comes⟩ := part
  let T : Terms := ⟨S, Awaited past around, fun _ _ => True, premature⟩
  let T' : Terms := ⟨S, Awaited past (⟨n + 1, t, m⟩ :: around), fun _ _ => True, premature⟩
  have during : T.during t m = T' := by
    unfold Terms.during
    rw [Awaited.during past ⟨n + 1, t, m⟩ around]
  refine comes.here (w := w) (Q := t.Suits S (Awaited past around) v) T T'
    (Dialogic.rule (Task.own_of_piece piece))
    (fun ev faithful real => ?_)
    fun t' v' w' m' comes' => lax.keeps (.part (a := ⟨n, t', m'⟩) path ⟨rfl, comes'⟩)
  rw [← during] at faithful
  refine faithful.rule (lax.accounts path ?_ fun _ _ _ _ _ _ => trivial) piece here
  exact fun e m₁ value m₂ result =>
    ⟨(real e m₁ value m₂ result).1, rfl, (real e m₁ value m₂ result).2⟩

theorem Covered.here (covered : r.Covered S past lost premature)
    (start : Here S (Awaited past []) w r.machine (.top r.program)) {a : Moment}
    {around : List Moment} (path : r.Path (a :: around)) :
    ∃ v w', a.task.piece? = some v.piece ∧ Here S (Awaited past around) w' a.machine v := by
  generalize same : a :: around = whole at path
  induction path generalizing a around with
  | first comes =>
    cases same
    let T : Terms := ⟨S, Awaited past [], fun _ _ => True, premature⟩
    exact comes.2.here T T (Dialogic.runTopLevel r.program)
      (fun ev faithful _ => faithful.runTopLevel start)
      fun t v w' m' comes' => covered.lax.keeps (.first ⟨rfl, comes'⟩)
  | part path part ih =>
    cases same
    obtain ⟨v, w', piece, here⟩ := ih rfl
    exact covered.here_part path part piece here

theorem Covered.result (covered : r.Covered S past lost premature)
    (start : Here S (Awaited past []) w r.machine (.top r.program)) :
    Keeps ⟨S, Awaited past [], lost, premature⟩
      (runTopLevel (.withFuel r.fuel) r.program) w r.machine fun _ _ _ => True := by
  let comes := ComesTo (fun ev => runTopLevel ev r.program) (Evaluator.withFuel r.fuel) r.machine
  let ev := (Evaluator.withFuel r.fuel).only comes
  have faithful : Faithful ⟨S, Awaited past [], lost, premature⟩ ev := by
    refine .of_answer fun t v w' m piece here => ?_
    by_cases asked : comes t m
    · exact .congr (Evaluator.answer_only asked) (covered.keeps (.first ⟨rfl, asked⟩) piece here)
    · exact .of_error (Evaluator.answer_only_of_not asked) (.refl w' m) (Keeps.left here.stands) trivial
  exact .congr ((Dialogic.runTopLevel r.program).only r.machine).symm (faithful.runTopLevel start)

end Episode

end Quill
