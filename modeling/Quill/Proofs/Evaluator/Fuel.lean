import Quill.Proofs.Evaluator.Steps

set_option autoImplicit false

namespace Quill

/-- The run was not cut off. -/
def Finished {α : Type} (result : EStateM.Result Halt Machine α) : Prop :=
  ∀ m, result ≠ .error .outOfFuel m

theorem not_finished_outOfFuel {α : Type} {m : Machine} :
    ¬Finished (.error .outOfFuel m : EStateM.Result Halt Machine α) :=
  fun finished => finished m rfl

theorem finished_ok {α : Type} (a : α) (m : Machine) :
    Finished (.ok a m : EStateM.Result Halt Machine α) :=
  fun _ same => by cases same

theorem Finished.error {α β : Type} {halt : Halt} {m m' : Machine}
    (finished : Finished (.error halt m : EStateM.Result Halt Machine α)) :
    Finished (.error halt m' : EStateM.Result Halt Machine β) :=
  fun m'' same => by
    cases same
    exact finished m rfl

namespace Run

def repeatWhile (meets : Run Bool) (round : Run Flow) : Nat → Run Flow
  | 0 => outOfFuel
  | n + 1 => do
    if ← meets then
      match ← round with
      | .normal => repeatWhile meets round n
      | .broke => pure .normal
      | .returned v => pure (.returned v)
    else pure .normal

def Below {α : Type} (x y : Run α) : Prop :=
  ∀ m, Finished (x m) → y m = x m

namespace Below

variable {α β : Type} {x y z : Run α}

theorem refl (x : Run α) : Below x x :=
  fun _ _ => rfl

theorem trans (first : Below x y) (second : Below y z) : Below x z := by
  intro m finished
  have same := first m finished
  rw [← same] at finished ⊢
  exact second m finished

theorem outOfFuel : Below Run.outOfFuel x :=
  fun _ finished => (not_finished_outOfFuel finished).elim

theorem bind {f g : α → Run β} (first : Below x y) (next : ∀ a, Below (f a) (g a)) :
    Below (x >>= f) (y >>= g) := by
  intro m finished
  rw [bind_eq_match] at finished
  rw [bind_eq_match, bind_eq_match]
  cases result : x m with
  | ok a m' =>
    rw [result] at finished
    rw [first m (result ▸ finished_ok a m'), result]
    exact next a m' finished
  | error halt m' =>
    rw [result] at finished
    rw [first m (result ▸ finished.error), result]

theorem map (f : α → β) (first : Below x y) : Below (f <$> x) (f <$> y) := by
  rw [map_eq_pure_bind, map_eq_pure_bind]
  exact first.bind fun a => .refl _

theorem attempt (inner : Below x y) : Below (Run.attempt x) (Run.attempt y) := by
  intro m finished
  unfold Run.attempt at finished ⊢
  have done : Finished (x m) := by
    intro m' cutOff
    rw [cutOff] at finished
    exact not_finished_outOfFuel finished
  rw [inner m done]

theorem inScope (s : ScopeId) (inner : Below x y) : Below (Run.inScope s x) (Run.inScope s y) := by
  intro m finished
  unfold Run.inScope at finished ⊢
  dsimp only at finished ⊢
  cases result : x { m with scope := s } with
  | ok a m' => rw [inner _ (result ▸ finished_ok a m'), result]
  | error halt m' =>
    rw [result] at finished
    rw [inner _ (result ▸ finished.error), result]

theorem repeatWhile {meets meets' : Run Bool} {round round' : Run Flow} (test : Below meets meets')
    (body : Below round round') {n k : Nat} (le : n ≤ k) :
    Below (Run.repeatWhile meets round n) (Run.repeatWhile meets' round' k) := by
  induction n generalizing k with
  | zero => exact .outOfFuel
  | succ n ih =>
    obtain ⟨k, rfl⟩ := Nat.exists_eq_add_of_lt (Nat.lt_of_succ_le le)
    refine test.bind fun holds => ?_
    cases holds with
    | false => exact .refl _
    | true =>
      refine body.bind fun flow => ?_
      cases flow with
      | normal => exact ih (Nat.le_add_right n k)
      | broke | returned _ => exact .refl _

end Below

end Run

theorem Dialogue.run_below {α : Type} {ev ev' : Evaluator}
    (answers : ∀ t, (ev.answer t).Below (ev'.answer t)) (d : Dialogue α)
    (finished : Finished (d.run ev)) : d.run ev' = d.run ev := by
  induction d with
  | done result => rfl
  | ask t m restore next ih =>
    unfold Dialogue.run at finished ⊢
    cases result : ev.answer t m with
    | ok a m' =>
      rw [result] at finished
      rw [answers t m (result ▸ finished_ok a m'), result]
      exact ih a m' finished
    | error halt m' =>
      rw [result] at finished
      rw [answers t m (result ▸ finished.error), result]

theorem Dialogic.below {α : Type} {P : Prop} {ev ev' : Evaluator} {x : Evaluator → Run α}
    (dialogic : Dialogic ev.rounds P x) (rounds : ev'.rounds = ev.rounds)
    (answers : ∀ t, (ev.answer t).Below (ev'.answer t)) : (x ev).Below (x ev') := by
  obtain ⟨d, same, -⟩ := dialogic
  intro m finished
  rw [same ev rfl] at finished
  rw [same ev rfl, same ev' rounds, Dialogue.run_below answers _ finished]

namespace Evaluator

structure Below (ev ev' : Evaluator) : Prop where
  rounds : ev.rounds ≤ ev'.rounds
  answers : ∀ t, (ev.answer t).Below (ev'.answer t)

section Rounds

variable (ev : Evaluator) (rounds : Nat)

def withRounds : Evaluator :=
  { ev with rounds := rounds }

theorem withRounds_sequence (body : List Stmt) :
    (ev.withRounds rounds).sequence body = ev.sequence body := by
  induction body with
  | nil => rfl
  | cons s rest ih =>
    unfold sequence
    rw [ih]
    rfl

theorem withRounds_evalAll (es : List Expr) (found : List Value) :
    (ev.withRounds rounds).evalAll es found = ev.evalAll es found := by
  induction es generalizing found with
  | nil => rfl
  | cons e rest ih =>
    unfold evalAll
    simp only [ih]
    rfl

theorem withRounds_callClosure (id : FunctionId) (arguments : List Value) (line : Nat) :
    (ev.withRounds rounds).callClosure id arguments line = ev.callClosure id arguments line := by
  simp only [callClosure, withRounds_sequence]

theorem withRounds_invokeRule (callee : Callable) (arguments : List Value) (line : Nat) :
    (ev.withRounds rounds).invokeRule callee arguments line = ev.invokeRule callee arguments line := by
  cases callee with
  | function id => exact ev.withRounds_callClosure rounds id arguments line
  | native id => rfl
  | classRef c => simp only [invokeRule, construct, withRounds_callClosure]

theorem withRounds_evalRule (e : Expr) : (ev.withRounds rounds).evalRule e = ev.evalRule e := by
  cases e with
  | call callee paren arguments =>
    simp only [evalRule, evalCall, withRounds_evalAll, withRounds_invokeRule]
    rfl
  | _ => rfl

theorem withRounds_execRule {s : Stmt} (noLoop : ∀ condition body, s ≠ .loop condition body) :
    (ev.withRounds rounds).execRule s = ev.execRule s := by
  cases s with
  | block body => simp only [execRule, execBlock, withRounds_sequence]
  | loop condition body => exact absurd rfl (noLoop condition body)
  | var name value => cases value <;> rfl
  | returnFrom keyword value => cases value <;> rfl
  | classDecl name superclass methods => cases superclass <;> rfl
  | conditional condition thenBranch elseBranch => cases elseBranch <;> rfl
  | _ => rfl

end Rounds

theorem execLoop_eq (ev : Evaluator) (condition : Expr) (body : Stmt) (n : Nat) :
    ev.execLoop condition body n =
      Run.repeatWhile (Value.isTruthy <$> ev.eval condition) (ev.exec body) n := by
  induction n with
  | zero => rfl
  | succ n ih =>
    unfold execLoop Run.repeatWhile
    rw [ih]
    symm
    exact bind_map_left Value.isTruthy (ev.eval condition) _

theorem Below.execRule {ev ev' : Evaluator} (below : ev.Below ev') (s : Stmt) :
    (ev.execRule s).Below (ev'.execRule s) := by
  by_cases loop : ∃ condition body, s = .loop condition body
  · obtain ⟨condition, body, rfl⟩ := loop
    simp only [Evaluator.execRule, execLoop_eq]
    exact .repeatWhile ((below.answers (.expr condition)).map _) (below.answers (.stmt body))
      below.rounds
  · rw [← ev'.withRounds_execRule ev.rounds fun condition body same => loop ⟨condition, body, same⟩]
    exact (Dialogic.execRule s).below rfl below.answers

theorem Below.actRule {ev ev' : Evaluator} (below : ev.Below ev') (line : Nat) (deed : Deed) :
    (ev.actRule line deed).Below (ev'.actRule line deed) := by
  induction deed with
  | done result => exact .refl _
  | change f next ih => exact (Run.Below.refl _).bind ih
  | add name arity respond next _ ih => exact (Run.Below.refl _).bind ih
  | call callee arguments next ih =>
    exact (below.answers (.call callee arguments line)).attempt.bind ih
  | execute s next ih => exact (below.answers (.stmt s)).attempt.bind ih
  | evaluate e next ih => exact (below.answers (.expr e)).attempt.bind ih

theorem Below.rule {ev ev' : Evaluator} (below : ev.Below ev') (t : Task) :
    (ev.rule t).Below (ev'.rule t) := by
  cases t with
  | expr e =>
    change (ev.evalRule e).Below (ev'.evalRule e)
    rw [← ev'.withRounds_evalRule ev.rounds]
    exact (Dialogic.evalRule e).below rfl below.answers
  | stmt s => exact below.execRule s
  | call callee arguments line =>
    change (ev.invokeRule callee arguments line).Below (ev'.invokeRule callee arguments line)
    rw [← ev'.withRounds_invokeRule ev.rounds]
    exact (Dialogic.invokeRule callee arguments line).below (P := False) rfl below.answers
  | act deed line => exact below.actRule line deed

theorem withFuel_below {n k : Nat} (le : n ≤ k) : (withFuel n).Below (withFuel k) := by
  induction n generalizing k with
  | zero =>
    refine ⟨Nat.zero_le _, fun t => ?_⟩
    rw [answer_zero]
    exact .outOfFuel
  | succ n ih =>
    obtain ⟨k, rfl⟩ := Nat.exists_eq_add_of_lt (Nat.lt_of_succ_le le)
    refine ⟨Nat.le_add_right n k, fun t => ?_⟩
    rw [answer_succ, answer_succ]
    exact (ih (Nat.le_add_right n k)).rule t

theorem answer_below_rule (n : Nat) (t : Task) :
    ((withFuel n).answer t).Below ((withFuel n).rule t) := by
  cases n with
  | zero =>
    rw [answer_zero]
    exact .outOfFuel
  | succ n =>
    rw [answer_succ]
    exact (withFuel_below (Nat.le_succ n)).rule t

end Evaluator

end Quill
