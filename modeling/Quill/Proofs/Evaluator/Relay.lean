import Quill.Proofs.Evaluator.Lawful
import Quill.Proofs.Evaluator.Moments

set_option autoImplicit false

namespace Quill

namespace ComesTo

variable {α β : Type} {P : Prop} {x : Evaluator → Run α} {f : Evaluator → α → Run β}
  {ev : Evaluator} {m m₁ : Machine} {t : Task}

theorem felt (comes : ComesTo x ev m t m₁) (result : EStateM.Result Halt Machine α)
    (unfelt : ∀ halt m', x (ev.cut t m₁ halt m') m = result) : False := by
  obtain ⟨m₂, first⟩ := comes .outOfFuel m
  obtain ⟨m₃, second⟩ := comes (.error (.io .sinkFull)) m
  rw [unfelt] at first second
  rw [first] at second
  cases second

theorem not_const {x : Run α} (comes : ComesTo (fun _ => x) ev m t m₁) : False :=
  comes.felt (x m) fun _ _ => rfl

theorem task_eq {u : Task} (comes : ComesTo (fun ev => ev.answer u) ev m t m₁) :
    u = t ∧ m = m₁ := by
  by_contra other
  exact comes.felt (ev.answer u m) fun _ _ => Evaluator.answer_cut_of_ne other

theorem not_eval {e : Expr} {s : Stmt} (comes : ComesTo (fun ev => ev.eval e) ev m (.stmt s) m₁) :
    False := by
  cases (task_eq (u := .expr e) comes).1

theorem exec_eq {s s' : Stmt} (comes : ComesTo (fun ev => ev.exec s') ev m (.stmt s) m₁) :
    s' = s ∧ m = m₁ := by
  obtain ⟨same, machine⟩ := task_eq (u := .stmt s') comes
  cases same
  exact ⟨rfl, machine⟩

theorem bind_cases (first : Dialogic ev.rounds P x)
    (comes : ComesTo (fun ev => x ev >>= f ev) ev m t m₁) :
    ComesTo x ev m t m₁ ∨
      ∃ a m', x ev m = .ok a m' ∧ ComesTo (fun ev => f ev a) ev m' t m₁ := by
  by_cases early : ComesTo x ev m t m₁
  · exact .inl early
  -- What is never asked for leaves the first run as it is, so the cut is felt after it.
  obtain ⟨d, same, -⟩ := first
  rw [comesTo_iff_asks (fun ev' fuel => same ev' fuel m)] at early
  have unfelt (halt : Halt) (m₂ : Machine) : x (ev.cut t m₁ halt m₂) m = x ev m := by
    rw [same ev rfl, same (ev.cut t m₁ halt m₂) rfl]
    refine Dialogue.run_congr fun t' m' asks => Evaluator.answer_cut_of_ne ?_
    rintro ⟨rfl, rfl⟩
    exact early asks
  cases result : x ev m with
  | ok a m' =>
    refine .inr ⟨a, m', rfl, fun halt m₂ => ?_⟩
    obtain ⟨m'', failed⟩ := comes halt m₂
    have goesOn := Run.bind_of_ok (f := f (ev.cut t m₁ halt m₂)) ((unfelt halt m₂).trans result)
    exact ⟨m'', goesOn.symm.trans failed⟩
  | error halt₀ m₀ =>
    refine (comes.felt (.error halt₀ m₀) fun halt m₂ => ?_).elim
    exact Run.bind_of_error ((unfelt halt m₂).trans result)

theorem after_const {x : Run α} (comes : ComesTo (fun ev => x >>= f ev) ev m t m₁) :
    ∃ a m', x m = .ok a m' ∧ ComesTo (fun ev => f ev a) ev m' t m₁ := by
  rcases bind_cases (x := fun _ => x) (P := False) (.const False.elim) comes with first | later
  · exact first.not_const.elim
  · exact later

theorem after_eval {e : Expr} {s : Stmt} {f : Evaluator → Value → Run β}
    (comes : ComesTo (fun ev => ev.eval e >>= f ev) ev m (.stmt s) m₁) :
    ∃ v m', ev.eval e m = .ok v m' ∧ ComesTo (fun ev => f ev v) ev m' (.stmt s) m₁ := by
  rcases bind_cases (.eval e) comes with first | later
  · exact first.not_eval.elim
  · exact later

theorem of_inScope {s : ScopeId} (comes : ComesTo (fun ev => Run.inScope s (x ev)) ev m t m₁) :
    ComesTo x ev { m with scope := s } t m₁ := by
  intro halt m'
  obtain ⟨m'', failed⟩ := comes halt m'
  unfold Run.inScope at failed
  dsimp only at failed
  cases result : x (ev.cut t m₁ halt m') { m with scope := s } with
  | ok a m₂ =>
    rw [result] at failed
    cases failed
  | error halt₂ m₂ =>
    rw [result] at failed
    cases failed
    exact ⟨m₂, rfl⟩

theorem within {R : Realm} (quiet : R.Quiet) (answers : Evaluator.Lawful R ev ev)
    (lawful : ∀ ev', Evaluator.Lawful R ev ev' → Run.Lawful R (x ev) (x ev'))
    (here : R.Holds m.heap) (comes : ComesTo x ev m t m₁) : R.Task t ∧ R.Holds m₁.heap := by
  by_contra outside
  -- What is outside is never asked for, so the cut is not felt.
  have unfelt (halt : Halt) (m' : Machine) : Evaluator.Lawful R ev (ev.cut t m₁ halt m') := by
    refine ⟨rfl, fun t' task => ?_⟩
    have answer := answers.answers t' task
    refine { answer with same := fun blind m₂ table holds agree => ?_ }
    rw [Evaluator.answer_cut_of_ne]
    · exact answer.same blind m₂ table holds agree
    · rintro ⟨rfl, rfl⟩
      exact outside ⟨task, holds⟩
  refine comes.felt (withTable m.distances (x ev m)) fun halt m' => ?_
  exact (lawful _ (unfelt halt m')).same quiet.blind m m.distances here fun _ _ => rfl

end ComesTo

structure Mute {α : Type} (rounds : Nat) (x : Evaluator → Run α) : Prop where
  dialogic : Dialogic rounds False x
  silent : ∀ {ev m s m₁}, ev.rounds = rounds → ¬ ComesTo x ev m (.stmt s) m₁

namespace Mute

variable {α β : Type} {rounds : Nat} {x : Evaluator → Run α}

theorem const (x : Run α) : Mute rounds fun _ => x :=
  ⟨.const False.elim, fun _ comes => comes.not_const⟩

theorem eval (e : Expr) : Mute rounds fun ev => ev.eval e :=
  ⟨(Dialogic.eval e).imp False.elim, fun _ comes => comes.not_eval⟩

theorem task {t : Task} (other : ∀ s, t ≠ .stmt s) : Mute rounds fun ev => ev.answer t :=
  ⟨(Dialogic.task t).imp False.elim, fun _ comes => other _ (ComesTo.task_eq comes).1⟩

theorem bind {f : Evaluator → α → Run β} (first : Mute rounds x)
    (next : ∀ a, Mute rounds fun ev => f ev a) : Mute rounds fun ev => x ev >>= f ev := by
  refine ⟨first.dialogic.bind fun a => (next a).dialogic, fun fuel comes => ?_⟩
  subst fuel
  rcases ComesTo.bind_cases first.dialogic comes with early | ⟨a, m', -, later⟩
  · exact first.silent rfl early
  · exact (next a).silent rfl later

theorem map (f : α → β) (first : Mute rounds x) : Mute rounds fun ev => f <$> x ev := by
  simp only [map_eq_pure_bind]
  exact first.bind fun a => const (Pure.pure (f a))

theorem evalAll (es : List Expr) (found : List Value) : Mute rounds fun ev => ev.evalAll es found := by
  induction es generalizing found with
  | nil => exact const _
  | cons e es ih => exact (eval e).bind fun v => ih (v :: found)

theorem evalOptional (e : Option Expr) : Mute rounds fun ev => ev.evalOptional e := by
  cases e with
  | none => exact const _
  | some e => exact eval e

theorem callNative (id : NativeId) (arguments : List Value) (line : Nat) :
    Mute rounds fun ev => ev.callNative id arguments line := by
  refine (const _).bind fun native => ?_
  cases native.respond arguments line with
  | invoke callee arguments => exact task (t := .call callee arguments line) (by simp)
  | act deed => exact task (t := .act deed line) (by simp)
  | value _ | error _ | now => exact const _

theorem execClass (name : Token) (superclass : Option Expr) (methods : List Function) :
    Mute rounds fun ev => ev.execClass name superclass methods := by
  have parent : Mute rounds fun ev => ev.evalSuperclass name superclass := by
    cases superclass with
    | none => exact const _
    | some e =>
      refine (eval e).bind fun v => ?_
      cases v <;> exact const _
  exact (const _).bind fun _ => parent.bind fun _ => const _

theorem evalRule {e : Expr} (other : ∀ callee paren arguments, e ≠ .call callee paren arguments) :
    Mute rounds fun ev => ev.evalRule e := by
  cases e with
  | literal | «variable» | this | super | function => exact const _
  | grouping e => exact eval e
  | unary _ e => exact (eval e).bind fun _ => const _
  | binary left _ right => exact (eval left).bind fun _ => (eval right).bind fun _ => const _
  | logical left operator right =>
    refine (eval left).bind fun a => ?_
    by_cases decided : a.isTruthy == operator.is .orKw
    · simp only [decided, if_true]
      exact const _
    · simp only [decided]
      exact eval right
  | assign _ _ e => exact (eval e).bind fun _ => const _
  | call callee paren arguments => exact absurd rfl (other callee paren arguments)
  | get e _ =>
    refine (eval e).bind fun v => ?_
    cases v <;> exact const _
  | set object _ e =>
    refine (eval object).bind fun v => ?_
    cases v with
    | instanceRef i => exact (eval e).bind fun _ => const _
    | _ => exact const _

end Mute

theorem Run.Lawful.of_ok {R : Realm} {α : Type} {x y : Run α} (lawful : Run.Lawful R x y)
    (quiet : R.Quiet) {m m' : Machine} {a : α} (here : R.Holds m.heap) (result : x m = .ok a m') :
    R.Holds m'.heap ∧ m.Restored m' := by
  have holds := lawful.holds m here
  have back := lawful.restored quiet m here
  rw [result] at holds back
  exact ⟨holds, back⟩

theorem Run.object_eq_ok {α : Type} {f : Heap → Option α} {m m' : Machine} {a : α}
    (result : object f m = .ok a m') : f m.heap = some a ∧ m' = m := by
  unfold object at result
  cases found : f m.heap with
  | none =>
    rw [found] at result
    cases result
  | some a' =>
    rw [found] at result
    cases result
    exact ⟨rfl, rfl⟩

theorem Machine.inScope_self {m : Machine} {s : ScopeId} (same : m.scope = s) :
    { m with scope := s } = m := by
  subst same
  rfl

def Flow.afterLoop : Flow → Flow
  | .broke => .normal
  | flow => flow

def Stmt.relay : Stmt → Flow → Flow
  | .loop .., flow => flow.afterLoop
  | _, flow => flow

namespace Evaluator

open Run

structure Owns (R : Realm) (s : Stmt) (h : Heap) (closure : Closure) : Prop where
  callee : R.Callee closure.code closure.isInitializer
  found : ∃ id : FunctionId, h.closures[id]? = some closure
  body : s ∈ closure.code.body

section Relay

variable {ev : Evaluator} {m m₁ m' : Machine} {s : Stmt} {flow : Flow}
  (ends : ev.exec s m₁ = .ok flow m') (signal : flow ≠ .normal)

include ends signal

theorem sequence_relays {body : List Stmt}
    (comes : ComesTo (fun ev => ev.sequence body) ev m (.stmt s) m₁) :
    s ∈ body ∧ ev.sequence body m = .ok flow m' := by
  induction body generalizing m with
  | nil => exact comes.not_const.elim
  | cons s' body ih =>
    rcases ComesTo.bind_cases (.exec s') comes with here | ⟨flow', m₂, result, later⟩
    · obtain ⟨rfl, rfl⟩ := here.exec_eq
      refine ⟨List.mem_cons_self, (bind_of_ok ends).trans ?_⟩
      cases flow with
      | normal => exact absurd rfl signal
      | returned _ | broke => rfl
    · cases flow' with
      | normal =>
        obtain ⟨mem, rest⟩ := ih later
        exact ⟨List.mem_cons_of_mem _ mem, (bind_of_ok result).trans rest⟩
      | returned _ | broke => exact later.not_const.elim

theorem execLoop_relays {condition : Expr} {body : Stmt} {n : Nat}
    (comes : ComesTo (fun ev => ev.execLoop condition body n) ev m (.stmt s) m₁) :
    ev.execLoop condition body n m = .ok flow.afterLoop m' := by
  induction n generalizing m with
  | zero => exact comes.not_const.elim
  | succ n ih =>
    obtain ⟨v, m₂, holds, comes⟩ := comes.after_eval
    refine (bind_of_ok holds).trans ?_
    cases truthy : v.isTruthy with
    | false =>
      simp only [truthy] at comes
      exact comes.not_const.elim
    | true =>
      simp only [truthy, if_true] at comes ⊢
      rcases ComesTo.bind_cases (.exec body) comes with here | ⟨flow', m₃, result, later⟩
      · obtain ⟨rfl, rfl⟩ := here.exec_eq
        refine (bind_of_ok ends).trans ?_
        cases flow with
        | normal => exact absurd rfl signal
        | returned _ | broke => rfl
      · cases flow' with
        | normal => exact (bind_of_ok result).trans (ih later)
        | returned _ | broke => exact later.not_const.elim

theorem execRule_relays (lawful : Lawful .whole ev ev) (discreet : m.heap.Discreet) {around : Stmt}
    (comes : ComesTo (fun ev => ev.execRule around) ev m (.stmt s) m₁) :
    ev.execRule around m = .ok (around.relay flow) { m' with scope := m.scope } := by
  have back := (lawful.execRule (s := around) trivial).restored Realm.whole_quiet m
    (Realm.whole_holds discreet)
  -- Where the signal is passed on as it is, the scope is back already.
  have passed (flow' : Flow) (result : ev.execRule around m = .ok flow' m') :
      ev.execRule around m = .ok flow' { m' with scope := m.scope } := by
    rw [result] at back
    have scope : m'.scope = m.scope := back.scope
    rw [result, Machine.inScope_self scope]
  have mute (silent : Mute ev.rounds fun ev => ev.execRule around) :
      ev.execRule around m = .ok (around.relay flow) { m' with scope := m.scope } :=
    (silent.silent rfl comes).elim
  cases around with
  | expression e => exact mute ((Mute.eval e).bind fun _ => .const _)
  | print e => exact mute ((Mute.eval e).bind fun _ => .const _)
  | var _ value => exact mute ((Mute.evalOptional value).bind fun _ => .const _)
  | breakLoop | function => exact mute (.const _)
  | returnFrom _ value => exact mute ((Mute.evalOptional value).map _)
  | classDecl name superclass methods => exact mute (.execClass name superclass methods)
  | block body =>
    obtain ⟨outer, m₂, here, comes⟩ := comes.after_const
    obtain ⟨scope, m₃, opened, comes⟩ := comes.after_const
    cases here
    cases opened
    obtain ⟨-, result⟩ := sequence_relays ends signal comes.of_inScope
    change inScope _ (ev.sequence body) _ = _
    unfold inScope
    simp only [result]
    rfl
  | conditional condition thenBranch elseBranch =>
    obtain ⟨v, m₂, holds, comes⟩ := comes.after_eval
    refine passed flow ((bind_of_ok holds).trans ?_)
    cases truthy : v.isTruthy with
    | true =>
      simp only [truthy, if_true] at comes ⊢
      obtain ⟨rfl, rfl⟩ := comes.exec_eq
      exact ends
    | false =>
      simp only [truthy] at comes ⊢
      cases elseBranch with
      | none => exact comes.not_const.elim
      | some s' =>
        obtain ⟨rfl, rfl⟩ := ComesTo.exec_eq comes
        exact ends
  | loop condition body =>
    have rounds : ComesTo (fun ev' => ev'.execLoop condition body ev.rounds) ev m (.stmt s) m₁ :=
      fun halt m₂ => comes halt m₂
    exact passed flow.afterLoop (execLoop_relays ends signal rounds)

end Relay

theorem mem_of_runTopLevel {ev : Evaluator} {m m₁ : Machine} {s : Stmt} {program : List Stmt}
    (comes : ComesTo (fun ev => runTopLevel ev program) ev m (.stmt s) m₁) : s ∈ program := by
  induction program generalizing m with
  | nil => exact comes.not_const.elim
  | cons s' program ih =>
    rcases ComesTo.bind_cases (.exec s') comes with here | ⟨flow, m₂, -, later⟩
    · obtain ⟨rfl, -⟩ := here.exec_eq
      exact List.mem_cons_self
    · cases flow with
      | normal => exact List.mem_cons_of_mem _ (ih later)
      | returned _ | broke => exact later.not_const.elim

end Evaluator

theorem Episode.Path.within {r : Episode} {a : Moment} {around : List Moment} {R : Realm}
    (quiet : R.Quiet) (code : R.Code (.stmts r.program)) (here : R.Holds r.machine.heap)
    (path : r.Path (a :: around)) : R.Task a.task ∧ R.Holds a.machine.heap := by
  generalize same : a :: around = whole at path
  induction path generalizing a around with
  | first comes =>
    cases same
    have lawful := Evaluator.lawful_withFuel R r.fuel
    exact comes.2.within quiet lawful (fun _ both => both.runTopLevel code) here
  | @part a b _ _ part ih =>
    cases same
    obtain ⟨task, holds⟩ := ih rfl
    have lawful := Evaluator.lawful_withFuel R a.fuel
    exact part.2.within quiet lawful (fun _ both => both.rule task) holds

end Quill
