import Quill.Evaluator.Statements

set_option autoImplicit false

namespace Quill

namespace Evaluator

def exhausted : Evaluator where
  rounds := 0
  eval _ := Run.outOfFuel
  exec _ := Run.outOfFuel
  invoke _ _ _ := Run.outOfFuel
  act _ _ := Run.outOfFuel

def withFuel : Nat → Evaluator
  | 0 => exhausted
  | n + 1 =>
    { rounds := n
      eval := fun e m => (withFuel n).evalRule e m
      exec := fun s m => (withFuel n).execRule s m
      invoke := fun callee arguments line m => (withFuel n).invokeRule callee arguments line m
      act := fun deed line m => (withFuel n).actRule line deed m }

end Evaluator

def runTopLevel (ev : Evaluator) : List Stmt → Run Unit
  | [] => pure ()
  | s :: rest => do
    match ← ev.exec s with
    | .normal => runTopLevel ev rest
    | .returned _ => Run.failInternally .returnEscaped
    | .broke => Run.failInternally .breakEscaped

/-- Runs a program and flushes what it printed, whatever the outcome. A failing flush is what is
reported then. -/
def interpret (fuel : Nat) (program : List Stmt) : Run Unit := fun m =>
  match runTopLevel (.withFuel fuel) program m with
  | .error .outOfFuel m => .error .outOfFuel m
  | .error (.error e) m =>
    .error (.error (if m.sink.flushFails then .io .flushFailed else e)) m
  | .ok () m => if m.sink.flushFails then .error (.error (.io .flushFailed)) m else .ok () m

def execute (fuel : Nat) (s : Stmt) : Run Flow :=
  (Evaluator.withFuel fuel).exec s

def evaluate (fuel : Nat) (e : Expr) : Run Value :=
  (Evaluator.withFuel fuel).eval e

end Quill
