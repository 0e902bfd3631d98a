import Mathlib.Tactic.Choose
import Quill.Proofs.Evaluator.Tidy

set_option autoImplicit false

namespace Quill

inductive Task where
  | expr (e : Expr)
  | stmt (s : Stmt)
  | call (callee : Callable) (arguments : List Value) (line : Nat)
  | act (deed : Deed) (line : Nat)

def Task.Result : Task → Type
  | stmt _ => Flow
  | expr _ | call .. | act .. => Value

def Task.WellFormed : Task → Prop
  | expr e => e.WellFormed
  | stmt s => s.WellFormed
  | call .. => True
  | act .. => False

def Task.Own : Task → Prop
  | act .. => False
  | _ => True

theorem Task.WellFormed.own {t : Task} (wf : t.WellFormed) : t.Own := by
  cases t with
  | act => exact wf
  | _ => trivial

namespace Evaluator

def answer (ev : Evaluator) : (t : Task) → Run t.Result
  | .expr e => ev.eval e
  | .stmt s => ev.exec s
  | .call callee arguments line => ev.invoke callee arguments line
  | .act deed line => ev.act deed line

def rule (ev : Evaluator) : (t : Task) → Run t.Result
  | .expr e => ev.evalRule e
  | .stmt s => ev.execRule s
  | .call callee arguments line => ev.invokeRule callee arguments line
  | .act deed line => ev.actRule line deed

theorem answer_withFuel_zero (t : Task) (m : Machine) :
    (withFuel 0).answer t m = .error .outOfFuel m := by
  cases t <;> rfl

theorem answer_withFuel_succ (n : Nat) (t : Task) (m : Machine) :
    (withFuel (n + 1)).answer t m = (withFuel n).rule t m := by
  cases t <;> rfl

theorem answer_zero (t : Task) : (withFuel 0).answer t = Run.outOfFuel :=
  funext (answer_withFuel_zero t)

theorem answer_succ (n : Nat) (t : Task) : (withFuel (n + 1)).answer t = (withFuel n).rule t :=
  funext (answer_withFuel_succ n t)

end Evaluator

/-- A run that asks for answers. A failing answer ends it, with the machine put back as it should
be. -/
inductive Dialogue (α : Type) where
  | done (result : EStateM.Result Halt Machine α)
  | ask (t : Task) (m : Machine) (restore : Machine → Machine)
    (next : t.Result → Machine → Dialogue α)

namespace Dialogue

variable {α β : Type}

def run (ev : Evaluator) : Dialogue α → EStateM.Result Halt Machine α
  | done result => result
  | ask t m restore next =>
    match ev.answer t m with
    | .ok a m' => (next a m').run ev
    | .error halt m' => .error halt (restore m')

def bind (f : α → Machine → Dialogue β) : Dialogue α → Dialogue β
  | done (.ok a m) => f a m
  | done (.error halt m) => done (.error halt m)
  | ask t m restore next => ask t m restore fun a m' => (next a m').bind f

theorem run_bind (ev : Evaluator) (f : α → Machine → Dialogue β) (d : Dialogue α) :
    (d.bind f).run ev =
      match d.run ev with
      | .ok a m => (f a m).run ev
      | .error halt m => .error halt m := by
  induction d with
  | done result => cases result <;> rfl
  | ask t m restore next ih =>
    simp only [bind, run]
    cases ev.answer t m with
    | ok a m' => exact ih a m'
    | error halt m' => rfl

def restoring (g : Machine → Machine) : Dialogue α → Dialogue α
  | done (.ok a m) => done (.ok a (g m))
  | done (.error halt m) => done (.error halt (g m))
  | ask t m restore next => ask t m (g ∘ restore) fun a m' => (next a m').restoring g

theorem run_restoring (ev : Evaluator) (g : Machine → Machine) (d : Dialogue α) :
    (d.restoring g).run ev =
      match d.run ev with
      | .ok a m => .ok a (g m)
      | .error halt m => .error halt (g m) := by
  induction d with
  | done result => cases result <;> rfl
  | ask t m restore next ih =>
    simp only [restoring, run]
    cases ev.answer t m with
    | ok a m' => exact ih a m'
    | error halt m' => rfl

def Orderly : Dialogue α → Heap → Prop
  | done result, h => h.Becomes (machineOf result).heap
  | ask t m restore next, h =>
    t.WellFormed ∧ h.Becomes m.heap ∧ (∀ m', (restore m').heap = m'.heap) ∧
      ∀ a m', m'.heap.Tidy → (next a m').Orderly m'.heap

theorem Orderly.earlier {d : Dialogue α} {h h' : Heap} (orderly : d.Orderly h')
    (becomes : h.Becomes h') : d.Orderly h := by
  cases d with
  | done result => exact becomes.trans orderly
  | ask t m restore next =>
    obtain ⟨wf, own, restores, answered⟩ := orderly
    exact ⟨wf, becomes.trans own, restores, answered⟩

theorem Orderly.bind {d : Dialogue α} {f : α → Machine → Dialogue β} {h : Heap}
    (orderly : d.Orderly h) (next : ∀ a m, m.heap.Tidy → (f a m).Orderly m.heap) :
    (d.bind f).Orderly h := by
  induction d generalizing h with
  | done result =>
    cases result with
    | ok a m => exact (next a m orderly.tidy).earlier orderly
    | error halt m => exact orderly
  | ask t m restore _ ih =>
    obtain ⟨wf, own, restores, answered⟩ := orderly
    exact ⟨wf, own, restores, fun a m' tidy => ih a m' (answered a m' tidy)⟩

theorem Orderly.restoring {d : Dialogue α} {g : Machine → Machine} {h : Heap}
    (orderly : d.Orderly h) (same : ∀ m, (g m).heap = m.heap) : (d.restoring g).Orderly h := by
  induction d generalizing h with
  | done result =>
    cases result with
    | ok a m =>
      change h.Becomes (g m).heap
      rw [same]
      exact orderly
    | error halt m =>
      change h.Becomes (g m).heap
      rw [same]
      exact orderly
  | ask t m restore _ ih =>
    obtain ⟨wf, own, restores, answered⟩ := orderly
    exact ⟨wf, own, fun m' => (same _).trans (restores m'),
      fun a m' tidy => ih a m' (answered a m' tidy)⟩

end Dialogue

def Dialogic {α : Type} (rounds : Nat) (P : Prop) (x : Evaluator → Run α) : Prop :=
  ∃ d : Machine → Dialogue α, (∀ ev, ev.rounds = rounds → ∀ m, x ev m = (d m).run ev) ∧
    (P → ∀ m : Machine, m.heap.Tidy → (d m).Orderly m.heap)

namespace Dialogic

open Evaluator Run

variable {α β : Type} {rounds : Nat} {P : Prop}

theorem const {x : Run α} (tame : P → Tame x) : Dialogic rounds P fun _ => x :=
  ⟨fun m => .done (x m), fun _ _ _ => rfl, fun h => tame h⟩

theorem task (t : Task) : Dialogic rounds t.WellFormed fun ev => ev.answer t := by
  refine ⟨fun m => .ask t m id fun a m' => .done (.ok a m'), fun ev _ m => ?_, fun wf m tidy => ?_⟩
  · simp only [Dialogue.run]
    cases ev.answer t m <;> rfl
  · exact ⟨wf, .refl tidy, fun _ => rfl, fun _ _ tidy' => .refl tidy'⟩

theorem eval (e : Expr) : Dialogic rounds e.WellFormed fun ev => ev.eval e :=
  task (.expr e)

theorem exec (s : Stmt) : Dialogic rounds s.WellFormed fun ev => ev.exec s :=
  task (.stmt s)

theorem imp {Q : Prop} {x : Evaluator → Run α} (dialogic : Dialogic rounds Q x) (h : P → Q) :
    Dialogic rounds P x := by
  obtain ⟨d, same, orderly⟩ := dialogic
  exact ⟨d, same, fun holds => orderly (h holds)⟩

theorem bind {x : Evaluator → Run α} {f : Evaluator → α → Run β} (first : Dialogic rounds P x)
    (next : ∀ a, Dialogic rounds P fun ev => f ev a) :
    Dialogic rounds P fun ev => x ev >>= f ev := by
  obtain ⟨d, same, orderly⟩ := first
  choose d' same' orderly' using next
  refine ⟨fun m => (d m).bind d', fun ev fuel m => ?_, fun holds m tidy => ?_⟩
  · rw [Dialogue.run_bind, ← same ev fuel m]
    refine (Run.bind_eq_match (x ev) (f ev) m).trans ?_
    cases x ev m with
    | ok a m' => exact same' a ev fuel m'
    | error halt m' => rfl
  · exact (orderly holds m tidy).bind fun a m' tidy' => orderly' a holds m' tidy'

theorem bind_object {γ : Type} {p : Heap → Option γ} {Q : γ → Prop} {f : Evaluator → γ → Run β}
    (known : ∀ h : Heap, h.Tidy → ∀ a, p h = some a → Q a)
    (next : ∀ a, Dialogic rounds (Q a) fun ev => f ev a) :
    Dialogic rounds P fun ev => Run.object p >>= f ev := by
  choose d same orderly using next
  refine ⟨fun m => (p m.heap).elim (.done (.error (.error (.internal .dangling)) m))
    fun a => d a m, fun ev fuel m => ?_, fun _ m tidy => ?_⟩
  · refine (Run.bind_eq_match (Run.object _) (f ev) m).trans ?_
    unfold Run.object
    dsimp only
    cases found : p m.heap with
    | none => rfl
    | some a => exact same a ev fuel m
  · dsimp only
    cases found : p m.heap with
    | none => exact .refl tidy
    | some a => exact orderly a (known m.heap tidy a found) m tidy

theorem bind_closure {f : Evaluator → Closure → Run β} (id : FunctionId)
    (next : ∀ closure, Dialogic rounds closure.code.WellFormed fun ev => f ev closure) :
    Dialogic rounds P fun ev => Run.object (·.closures[id]?) >>= f ev :=
  bind_object (fun _ tidy => tidy.1 id) next

theorem bind_native {f : Evaluator → Native → Run β} (id : NativeId)
    (next : ∀ native, Dialogic rounds native.Discreet fun ev => f ev native) :
    Dialogic rounds P fun ev => Run.object (·.natives[id]?) >>= f ev :=
  bind_object (fun _ tidy _ => tidy.2.found) next

theorem map {x : Evaluator → Run α} (f : α → β) (first : Dialogic rounds P x) :
    Dialogic rounds P fun ev => f <$> x ev := by
  simp only [map_eq_pure_bind]
  exact first.bind fun a => const fun _ => .pure (f a)

theorem inScope {x : Evaluator → Run α} (s : ScopeId) (inner : Dialogic rounds P x) :
    Dialogic rounds P fun ev => Run.inScope s (x ev) := by
  obtain ⟨d, same, orderly⟩ := inner
  refine ⟨fun m => (d { m with scope := s }).restoring fun m' => { m' with scope := m.scope },
    fun ev fuel m => ?_, fun holds m tidy => ?_⟩
  · rw [Dialogue.run_restoring, ← same ev fuel]
    rfl
  · exact (orderly holds { m with scope := s } tidy).restoring fun _ => rfl

theorem oneDeeper {x : Evaluator → Run α} (line : Nat) (inner : Dialogic rounds P x) :
    Dialogic rounds P fun ev => Run.oneDeeper line (x ev) := by
  obtain ⟨d, same, orderly⟩ := inner
  refine ⟨fun m =>
    if m.maxDepth ≤ m.depth then .done (.error (.error (.runtime .stackOverflow line)) m)
    else (d { m with depth := m.depth + 1 }).restoring fun m' => { m' with depth := m.depth },
    fun ev fuel m => ?_, fun holds m tidy => ?_⟩
  · unfold Run.oneDeeper
    simp only
    split
    · rfl
    · have inner := Dialogue.run_restoring ev (fun m' => { m' with depth := m.depth })
        (d { m with depth := m.depth + 1 })
      rw [← same ev fuel] at inner
      exact inner.symm
  · simp only
    split
    · exact .refl tidy
    · exact (orderly holds { m with depth := m.depth + 1 } tidy).restoring fun _ => rfl

theorem sequence (body : List Stmt) :
    Dialogic rounds (WellFormedStmts body) fun ev => ev.sequence body := by
  induction body with
  | nil => exact const fun _ => .pure _
  | cons s body ih =>
    refine ((exec s).imp And.left).bind fun flow => ?_
    cases flow with
    | normal => exact ih.imp And.right
    | returned _ | broke => exact const fun _ => .pure _

theorem callClosure (id : FunctionId) (arguments : List Value) (line : Nat) :
    Dialogic rounds P fun ev => ev.callClosure id arguments line := by
  refine bind_closure id fun closure => ?_
  refine (const fun _ => .ask _).bind fun vars => (const fun _ => .newScope _ _).bind fun scope => ?_
  refine (inScope scope (.imp (sequence closure.code.body) Function.WellFormed.body)).bind fun flow => ?_
  exact const fun _ => Tame.gentle.resultOf closure line flow

theorem construct (c : ClassId) (arguments : List Value) (line : Nat) :
    Dialogic rounds P fun ev => ev.construct c arguments line := by
  refine (const fun _ => .newInstance c).bind fun i => (const fun _ => .ask _).bind fun method => ?_
  cases method with
  | none => exact const fun _ => .pure _
  | some method =>
    refine (const fun _ => .bindMethod method i).bind fun bound => ?_
    exact (callClosure bound arguments line).bind fun _ => const fun _ => .pure _

theorem callNative (id : NativeId) (arguments : List Value) (line : Nat) :
    Dialogic rounds P fun ev => ev.callNative id arguments line := by
  refine bind_native id fun native => ?_
  cases reply : native.respond arguments line with
  | invoke callee arguments => exact (task (.call callee arguments line)).imp fun _ => trivial
  | value _ => exact const fun _ => .pure _
  | error _ => exact const fun _ => .fail _
  | now => exact const fun _ => .of_same fun _ => rfl
  | act deed =>
    exact (task (.act deed line)).imp fun discreet => discreet arguments line deed reply

theorem invokeRule (callee : Callable) (arguments : List Value) (line : Nat) :
    Dialogic rounds P fun ev => ev.invokeRule callee arguments line := by
  cases callee with
  | function id => exact callClosure id arguments line
  | native id => exact callNative id arguments line
  | classRef id => exact construct id arguments line

theorem evalAll (es : List Expr) (found : List Value) :
    Dialogic rounds (WellFormedExprs es) fun ev => ev.evalAll es found := by
  induction es generalizing found with
  | nil => exact const fun _ => .pure _
  | cons e es ih => exact ((eval e).imp And.left).bind fun v => (ih (v :: found)).imp And.right

theorem evalCall (callee : Expr) (paren : Token) (arguments : List Expr) :
    Dialogic rounds (callee.WellFormed ∧ WellFormedExprs arguments) fun ev =>
      ev.evalCall callee paren arguments := by
  refine ((eval callee).imp And.left).bind fun f => ?_
  refine ((evalAll arguments []).imp And.right).bind fun values => ?_
  cases f.callable? with
  | none => exact const fun _ => .fail _
  | some callable =>
    refine (const fun _ => .ask _).bind fun arity => ?_
    by_cases fits : values.length = arity
    · simp only [fits, if_true]
      exact oneDeeper paren.line (invokeRule callable values paren.line)
    · simp only [fits, if_false]
      exact const fun _ => .fail _

theorem evalRule (e : Expr) : Dialogic rounds e.WellFormed fun ev => ev.evalRule e := by
  cases e with
  | literal _ => exact const fun _ => .pure _
  | «variable» id name => exact const fun _ => .readRef id name
  | this id keyword => exact const fun _ => .readRef id keyword
  | super id keyword method => exact const fun _ => Tame.gentle.evalSuper (.ask _) method
  | function f => exact const fun wf => .evalFunction wf
  | grouping e => exact eval e
  | unary operator e => exact ((eval e).imp And.right).bind fun v => const fun _ => .ask _
  | binary left operator right =>
    refine ((eval left).imp fun wf => wf.2.1).bind fun a => ?_
    exact ((eval right).imp fun wf => wf.2.2).bind fun b => const fun _ => .ask _
  | logical left operator right =>
    refine ((eval left).imp And.left).bind fun a => ?_
    by_cases decided : a.isTruthy == operator.is .orKw
    · simp only [decided, if_true]
      exact const fun _ => .pure a
    · simp only [decided]
      exact (eval right).imp And.right
  | assign id name e =>
    refine ((eval e).imp And.right).bind fun v => const fun wf => ?_
    exact (Tame.writeRef wf.1 id v).bind fun _ => .pure v
  | call callee paren arguments => exact evalCall callee paren arguments
  | get e name =>
    refine (eval e).bind fun v => ?_
    cases v with
    | instanceRef i => exact const fun _ => Tame.gentle.property i name
    | _ => exact const fun _ => .fail _
  | set object name e =>
    refine ((eval object).imp And.left).bind fun v => ?_
    cases v with
    | instanceRef i =>
      refine ((eval e).imp And.right).bind fun v => const fun _ => ?_
      exact (Tame.setField i name v).bind fun _ => .pure v
    | _ => exact const fun _ => .fail _

theorem evalOptional (e : Option Expr) :
    Dialogic rounds (∀ e' ∈ e, e'.WellFormed) fun ev => ev.evalOptional e := by
  cases e with
  | none => exact const fun _ => .pure _
  | some e => exact (eval e).imp fun wf => wf e rfl

theorem execLoop (condition : Expr) (body : Stmt) (n : Nat) :
    Dialogic rounds (condition.WellFormed ∧ body.WellFormed) fun ev =>
      ev.execLoop condition body n := by
  induction n with
  | zero => exact const fun _ => .outOfFuel
  | succ n ih =>
    refine ((eval condition).imp And.left).bind fun v => ?_
    cases v.isTruthy with
    | false => exact const fun _ => .pure _
    | true =>
      refine ((exec body).imp And.right).bind fun flow => ?_
      cases flow with
      | normal => exact ih
      | broke | returned _ => exact const fun _ => .pure _

theorem execClass (name : Token) (superclass : Option Expr) (methods : List Function) :
    Dialogic rounds (name.Plain ∧ Superclass superclass ∧ WellFormedFunctions methods) fun ev =>
      ev.execClass name superclass methods := by
  have parent : Dialogic rounds (Superclass superclass) fun ev =>
      ev.evalSuperclass name superclass := by
    cases superclass with
    | none => exact const fun _ => .pure _
    | some e =>
      refine ((eval e).imp wellFormed_of_superclass).bind fun v => ?_
      cases v with
      | classRef c => exact const fun _ => .pure _
      | _ => exact const fun _ => .fail _
  refine (const fun wf => .define wf.1 _).bind fun _ => (parent.imp fun wf => wf.2.1).bind fun p => ?_
  refine const fun wf => (Tame.methodScope p).bind fun scope => ?_
  refine (Tame.methodTable scope wf.2.2 _).bind fun table => (Tame.newClass _).bind fun c => ?_
  exact (Tame.assignNearest wf.1 _).bind fun _ => .pure _

theorem execRule (s : Stmt) : Dialogic rounds s.WellFormed fun ev => ev.execRule s := by
  cases s with
  | breakLoop _ => exact const fun _ => .pure _
  | function f => exact const fun wf => .execFunction wf.1 wf.2
  | expression e => exact (eval e).bind fun _ => const fun _ => .pure _
  | print e => exact (eval e).bind fun v => const fun _ => (Tame.print v).bind fun _ => .pure _
  | var name initializer =>
    have plain (wf : (Stmt.var name initializer).WellFormed) : name.Plain := by
      cases initializer with
      | none => exact wf
      | some e => exact wf.1
    refine ((evalOptional initializer).imp ?_).bind fun v => const fun wf => ?_
    · rintro wf e rfl
      exact wf.2
    · exact (Tame.define (plain wf) v).bind fun _ => .pure _
  | block body =>
    refine (const fun _ => .of_same fun _ => rfl).bind fun _ => ?_
    exact (const fun _ => .newScope _ _).bind fun scope => inScope scope (sequence body)
  | conditional condition thenBranch elseBranch =>
    cases elseBranch with
    | none =>
      refine ((eval condition).imp And.left).bind fun v => ?_
      cases v.isTruthy with
      | true => exact (exec thenBranch).imp fun wf => wf.2.1
      | false => exact const fun _ => .pure _
    | some s =>
      refine ((eval condition).imp And.left).bind fun v => ?_
      cases v.isTruthy with
      | true => exact (exec thenBranch).imp fun wf => wf.2.1.1
      | false => exact (exec s).imp fun wf => wf.2.2.1
  | loop condition body =>
    -- The dialogue has as many rounds as every evaluator that holds it.
    have rounds' : Dialogic rounds _ fun ev => ev.execLoop condition body rounds :=
      execLoop condition body rounds
    obtain ⟨d, same, orderly⟩ := rounds'
    refine ⟨d, fun ev fuel m => ?_, fun wf => orderly ⟨wf.1, wf.2.1⟩⟩
    rw [← same ev fuel m]
    change ev.execLoop condition body ev.rounds m = _
    rw [fuel]
  | returnFrom _ value =>
    refine ((evalOptional value).imp ?_).map Flow.returned
    rintro wf e rfl
    exact wf
  | classDecl name superclass methods => exact execClass name superclass methods

theorem rule {t : Task} (own : t.Own) : Dialogic rounds t.WellFormed fun ev => ev.rule t := by
  cases t with
  | expr e => exact evalRule e
  | stmt s => exact execRule s
  | call callee arguments line => exact invokeRule callee arguments line
  | act deed line => exact own.elim

theorem runTopLevel (program : List Stmt) :
    Dialogic rounds (WellFormedStmts program) fun ev => runTopLevel ev program := by
  induction program with
  | nil => exact const fun _ => .pure _
  | cons s rest ih =>
    refine ((exec s).imp And.left).bind fun flow => ?_
    cases flow with
    | normal => exact ih.imp And.right
    | returned _ | broke => exact const fun _ => .fail _

end Dialogic

end Quill
