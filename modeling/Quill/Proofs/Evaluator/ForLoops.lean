import Quill.Proofs.Evaluator.Fuel
import Quill.Proofs.Grammar.Soundness

set_option autoImplicit false

namespace Quill

/-- The clauses of a `for` loop, and its body. -/
structure ForLoop where
  initializer : Option Stmt
  condition : Option Expr
  increment : Option Expr
  body : Stmt

namespace ForLoop

def desugared (l : ForLoop) : Stmt :=
  Grammar.desugarFor l.initializer l.condition l.increment l.body

end ForLoop

namespace Run

def inNewScope {α : Type} (x : Run α) : Run α := do
  let scope ← newScope {} (← currentScope)
  inScope scope x

def andThen (x y : Run Flow) : Run Flow := do
  match ← x with
  | .normal => y
  | flow => pure flow

namespace Below

theorem inNewScope {α : Type} {x y : Run α} (inner : Below x y) :
    Below x.inNewScope y.inNewScope :=
  (refl _).bind fun _ => (refl _).bind fun scope => inner.inScope scope

theorem andThen {x x' y y' : Run Flow} (first : Below x x') (second : Below y y') :
    Below (x.andThen y) (x'.andThen y') := by
  refine first.bind fun flow => ?_
  cases flow with
  | normal => exact second
  | broke | returned _ => exact .refl _

end Below

end Run

namespace Evaluator

def meets (ev : Evaluator) : Option Expr → Run Bool
  | none => pure true
  | some e => Value.isTruthy <$> ev.eval e

def execRound (ev : Evaluator) (body : Stmt) : Option Expr → Run Flow
  | none => ev.exec body
  | some e => ((ev.exec body).andThen do let _ ← ev.eval e; pure .normal).inNewScope

def execRounds (ev : Evaluator) (l : ForLoop) : Run Flow :=
  .repeatWhile (ev.meets l.condition) (ev.execRound l.body l.increment) ev.rounds

/-- The initializer runs once, in a new scope that lasts for the whole loop. -/
def execFor (ev : Evaluator) (l : ForLoop) : Run Flow :=
  match l.initializer with
  | none => ev.execRounds l
  | some s => ((ev.exec s).andThen (ev.execRounds l)).inNewScope

theorem execRule_pair (ev : Evaluator) (s t : Stmt) :
    ev.execRule (.block [s, t]) = ((ev.exec s).andThen (ev.exec t)).inNewScope := by
  have single : ev.sequence [t] = ev.exec t := by
    unfold sequence sequence
    funext m
    rw [Run.bind_eq_match]
    cases ev.exec t m with
    | ok flow m' => cases flow <;> rfl
    | error halt m' => rfl
  have both : ev.sequence [s, t] = (ev.exec s).andThen (ev.exec t) := by
    refine congrArg (ev.exec s >>= ·) (funext fun flow => ?_)
    cases flow with
    | normal => exact single
    | broke | returned _ => rfl
  change Run.inNewScope (ev.sequence [s, t]) = _
  rw [both]

theorem execRule_while (ev : Evaluator) (condition : Expr) (body : Stmt) :
    ev.execRule (.loop condition body) =
      .repeatWhile (ev.meets (some condition)) (ev.exec body) ev.rounds :=
  execLoop_eq ev condition body ev.rounds

section Fuel

variable (n : Nat)

theorem exec_below_rule (s : Stmt) : ((withFuel n).exec s).Below ((withFuel n).execRule s) :=
  answer_below_rule n (.stmt s)

theorem eval_below_rule (e : Expr) : ((withFuel n).eval e).Below ((withFuel n).evalRule e) :=
  answer_below_rule n (.expr e)

variable {n} {k : Nat}

theorem exec_below (le : n ≤ k) (s : Stmt) : ((withFuel n).exec s).Below ((withFuel k).exec s) :=
  (withFuel_below le).answers (.stmt s)

theorem eval_below (le : n ≤ k) (e : Expr) : ((withFuel n).eval e).Below ((withFuel k).eval e) :=
  (withFuel_below le).answers (.expr e)

theorem condition_below (condition : Option Expr) :
    ((withFuel n).meets (some (conditionOr (.literal (.boolean true)) condition))).Below
      ((withFuel n).meets condition) := by
  cases condition with
  | none => exact (eval_below_rule n (.literal (.boolean true))).map Value.isTruthy
  | some e => exact .refl _

theorem round_below (body : Stmt) (increment : Option Expr) :
    ((withFuel n).exec (withIncrement body increment)).Below
      ((withFuel n).execRound body increment) := by
  cases increment with
  | none => exact .refl _
  | some e =>
    have block := exec_below_rule n (.block [body, .expression e])
    rw [execRule_pair] at block
    exact block.trans ((Run.Below.refl _).andThen (exec_below_rule n (.expression e))).inNewScope

theorem rounds_below (l : ForLoop) :
    ((withFuel n).exec (.loop (conditionOr (.literal (.boolean true)) l.condition)
      (withIncrement l.body l.increment))).Below ((withFuel n).execRounds l) := by
  refine (exec_below_rule n _).trans ?_
  rw [execRule_while]
  exact (condition_below l.condition).repeatWhile (round_below l.body l.increment) (Nat.le_refl _)

theorem desugared_below (l : ForLoop) :
    ((withFuel n).exec l.desugared).Below ((withFuel n).execFor l) := by
  obtain ⟨initializer, condition, increment, body⟩ := l
  unfold ForLoop.desugared
  rw [Grammar.desugarFor_eq]
  cases initializer with
  | none => exact rounds_below ⟨none, condition, increment, body⟩
  | some s =>
    refine (exec_below_rule n _).trans ?_
    rw [afterStart, execRule_pair]
    exact ((Run.Below.refl _).andThen (rounds_below ⟨some s, condition, increment, body⟩)).inNewScope

theorem exec_pair (s t : Stmt) :
    (withFuel (n + 1)).exec (.block [s, t]) =
      (((withFuel n).exec s).andThen ((withFuel n).exec t)).inNewScope :=
  execRule_pair (withFuel n) s t

theorem exec_while (condition : Expr) (body : Stmt) :
    (withFuel (n + 1)).exec (.loop condition body) =
      .repeatWhile ((withFuel n).meets (some condition)) ((withFuel n).exec body)
        (withFuel n).rounds :=
  execRule_while (withFuel n) condition body

theorem below_condition (condition : Option Expr) :
    ((withFuel n).meets condition).Below
      ((withFuel (n + 1)).meets (some (conditionOr (.literal (.boolean true)) condition))) := by
  cases condition with
  | none => exact .refl _
  | some e => exact (eval_below (Nat.le_succ n) e).map _

theorem below_round (body : Stmt) (increment : Option Expr) :
    ((withFuel n).execRound body increment).Below
      ((withFuel (n + 2)).exec (withIncrement body increment)) := by
  cases increment with
  | none => exact exec_below (Nat.le_add_right n 2) body
  | some e =>
    rw [withIncrement, exec_pair]
    exact ((exec_below (Nat.le_succ n) body).andThen (.refl _)).inNewScope

theorem below_rounds (l : ForLoop) :
    ((withFuel n).execRounds l).Below
      ((withFuel (n + 3)).exec (.loop (conditionOr (.literal (.boolean true)) l.condition)
        (withIncrement l.body l.increment))) := by
  rw [exec_while]
  refine Run.Below.repeatWhile ?_ (below_round l.body l.increment)
    (withFuel_below (Nat.le_add_right n 2)).rounds
  exact (below_condition l.condition).trans ((eval_below (Nat.le_succ (n + 1)) _).map _)

theorem below_desugared (l : ForLoop) :
    ((withFuel n).execFor l).Below ((withFuel (n + 4)).exec l.desugared) := by
  obtain ⟨initializer, condition, increment, body⟩ := l
  unfold ForLoop.desugared
  rw [Grammar.desugarFor_eq]
  cases initializer with
  | none =>
    exact (below_rounds ⟨none, condition, increment, body⟩).trans (exec_below (Nat.le_succ _) _)
  | some s =>
    rw [afterStart, exec_pair]
    exact ((exec_below (Nat.le_add_right n 3) s).andThen
      (below_rounds ⟨some s, condition, increment, body⟩)).inNewScope

end Fuel

theorem execFor_iff (l : ForLoop) (m : Machine) (result : EStateM.Result Halt Machine Flow)
    (finished : Finished result) :
    (∃ fuel, execute fuel l.desugared m = result) ↔
      ∃ fuel, (withFuel fuel).execFor l m = result := by
  constructor
  · rintro ⟨fuel, rfl⟩
    exact ⟨fuel, desugared_below l m finished⟩
  · rintro ⟨fuel, rfl⟩
    exact ⟨fuel + 4, below_desugared l m finished⟩

end Evaluator

end Quill
