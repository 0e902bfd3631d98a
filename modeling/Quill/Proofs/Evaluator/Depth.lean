import Quill.Proofs.Evaluator.Relay

set_option autoImplicit false

namespace Quill

/-- The machine at another depth and under another limit. -/
def Machine.gauged (m : Machine) (depth limit : Nat) : Machine :=
  { m with depth := depth, maxDepth := limit }

theorem Machine.gauged_self {m : Machine} {depth limit : Nat} (here : m.depth = depth)
    (under : m.maxDepth = limit) : m.gauged depth limit = m := by
  subst here under
  rfl

def gauged {α : Type} (depth limit : Nat) :
    EStateM.Result Halt Machine α → EStateM.Result Halt Machine α
  | .ok a m => .ok a (m.gauged depth limit)
  | .error halt m => .error halt (m.gauged depth limit)

def Overflows {α : Type} (result : EStateM.Result Halt Machine α) : Prop :=
  ∃ line m, result = .error (.error (.runtime .stackOverflow line)) m

namespace Run

def Blind {α : Type} (x : Run α) : Prop :=
  ∀ (m : Machine) (depth limit : Nat), x (m.gauged depth limit) = Quill.gauged depth limit (x m)

theorem OnHeap.blind {α : Type} {x : Run α} (onHeap : OnHeap x) : Blind x := by
  intro m depth limit
  have kept : x m = mapMachine (·.amid m) (x m) := onHeap.same m m
  have moved : x (m.gauged depth limit) = mapMachine (·.amid (m.gauged depth limit)) (x m) :=
    onHeap.same m (m.gauged depth limit)
  rw [moved, kept]
  cases x m <;> rfl

theorem Blind.print (value : Value) : Blind (Run.print value) := by
  intro m depth limit
  unfold Run.print
  dsimp only [Machine.gauged]
  rw [apply_ite (Quill.gauged depth limit)]
  rfl

structure Agree {α : Type} (level limit limit' : Nat) (r r' : EStateM.Result Halt Machine α) :
    Prop where
  depth : (machineOf r).depth = level
  under : (machineOf r).maxDepth = limit
  discreet : (machineOf r).heap.Discreet
  same : r' = Quill.gauged level limit' r ∨ limit ≠ limit' ∧ Overflows r

def Follows {α : Type} (level limit limit' : Nat) (x y : Run α) : Prop :=
  ∀ m : Machine, m.depth = level → m.maxDepth = limit → m.heap.Discreet →
    Agree level limit limit' (x m) (y (m.gauged level limit'))

namespace Follows

variable {α β : Type} {level limit limit' : Nat} {x y : Run α}

theorem of_blind (blind : Blind x)
    (natives : ∀ m : Machine, (machineOf (x m)).heap.natives = m.heap.natives) :
    Follows level limit limit' x x := by
  intro m here under discreet
  have same : x m = Quill.gauged level limit (x m) := by
    have kept := blind m level limit
    rw [Machine.gauged_self here under] at kept
    exact kept
  refine ⟨?_, ?_, discreet.of_natives (natives m), .inl (blind m level limit')⟩
  · rw [same]
    cases x m <;> rfl
  · rw [same]
    cases x m <;> rfl

theorem of_onHeap (onHeap : OnHeap x) : Follows level limit limit' x x :=
  of_blind onHeap.blind onHeap.natives

theorem pure (a : α) : Follows level limit limit' (Pure.pure a : Run α) (Pure.pure a) :=
  of_onHeap (.pure a)

theorem fail (e : Error) : Follows level limit limit' (Run.fail e : Run α) (Run.fail e) :=
  of_onHeap (.fail e)

theorem print (value : Value) :
    Follows level limit limit' (Run.print value) (Run.print value) := by
  refine of_blind (.print value) fun m => ?_
  unfold Run.print
  dsimp only
  split <;> rfl

theorem bind {f g : α → Run β} (first : Follows level limit limit' x y)
    (next : ∀ a, Follows level limit limit' (f a) (g a)) :
    Follows level limit limit' (x >>= f) (y >>= g) := by
  intro m here under discreet
  obtain ⟨depth, limited, discreet, same⟩ := first m here under discreet
  rw [bind_eq_match, bind_eq_match]
  rcases same with same | ⟨other, line, m', overflow⟩
  · rw [same]
    cases result : x m with
    | ok a m' =>
      rw [result] at depth limited discreet
      exact next a m' depth limited discreet
    | error halt m' =>
      rw [result] at depth limited discreet
      exact ⟨depth, limited, discreet, .inl rfl⟩
  · rw [overflow] at depth limited discreet ⊢
    exact ⟨depth, limited, discreet, .inr ⟨other, line, m', rfl⟩⟩

theorem map (f : α → β) (first : Follows level limit limit' x y) :
    Follows level limit limit' (f <$> x) (f <$> y) := by
  rw [map_eq_pure_bind, map_eq_pure_bind]
  exact first.bind fun a => pure (f a)

theorem inScope (s : ScopeId) (inner : Follows level limit limit' x y) :
    Follows level limit limit' (Run.inScope s x) (Run.inScope s y) := by
  intro m here under discreet
  obtain ⟨depth, limited, discreet, same⟩ := inner { m with scope := s } here under discreet
  have entered : { m.gauged level limit' with scope := s } =
      Machine.gauged { m with scope := s } level limit' := rfl
  unfold Run.inScope
  simp only [entered]
  rcases same with same | ⟨other, line, m', overflow⟩
  · rw [same]
    cases result : x { m with scope := s } with
    | ok a m' | error halt m' =>
      rw [result] at depth limited discreet
      exact ⟨depth, limited, discreet, .inl rfl⟩
  · rw [overflow] at depth limited discreet ⊢
    exact ⟨depth, limited, discreet, .inr ⟨other, line, _, rfl⟩⟩

theorem oneDeeper (line : Nat) (le : limit ≤ limit')
    (inner : level < limit → Follows (level + 1) limit limit' x y) :
    Follows level limit limit' (Run.oneDeeper line x) (Run.oneDeeper line y) := by
  intro m here under discreet
  subst here under
  -- Under the smaller limit the call overflows, or else both runs enter it one deeper.
  by_cases deep : m.maxDepth ≤ m.depth
  · have stops : Run.oneDeeper line x m = .error (.error (.runtime .stackOverflow line)) m :=
      if_pos deep
    rw [stops]
    refine ⟨rfl, rfl, discreet, ?_⟩
    by_cases equal : m.maxDepth = limit'
    · subst equal
      exact .inl (if_pos deep)
    · exact .inr ⟨equal, line, m, rfl⟩
  · have shallow := Nat.lt_of_not_le deep
    let entered := { m with depth := m.depth + 1 }
    have left : Run.oneDeeper line x m =
        match x entered with
        | .ok a m' => .ok a { m' with depth := m.depth }
        | .error e m' => .error e { m' with depth := m.depth } := if_neg deep
    have right : Run.oneDeeper line y (m.gauged m.depth limit') =
        match y (entered.gauged (m.depth + 1) limit') with
        | .ok a m' => .ok a { m' with depth := m.depth }
        | .error e m' => .error e { m' with depth := m.depth } :=
      if_neg (Nat.not_le_of_lt (Nat.lt_of_lt_of_le shallow le))
    obtain ⟨-, limited, discreet, same⟩ := inner shallow entered rfl rfl discreet
    rw [left, right]
    rcases same with same | ⟨other, line', m', overflow⟩
    · rw [same]
      cases result : x entered with
      | ok a m' | error halt m' =>
        rw [result] at limited discreet
        exact ⟨rfl, limited, discreet, .inl rfl⟩
    · rw [overflow] at limited discreet ⊢
      exact ⟨rfl, limited, discreet, .inr ⟨other, line', _, rfl⟩⟩

theorem eq_of_self (follows : Follows level limit limit x y) {m : Machine} (here : m.depth = level)
    (under : m.maxDepth = limit) (discreet : m.heap.Discreet) : y m = x m := by
  obtain ⟨depth, limited, -, same⟩ := follows m here under discreet
  rw [Machine.gauged_self here under] at same
  rcases same with same | ⟨other, -⟩
  · rw [same]
    cases result : x m with
    | ok a m' =>
      rw [result] at depth limited
      exact congrArg (EStateM.Result.ok a) (Machine.gauged_self depth limited)
    | error halt m' =>
      rw [result] at depth limited
      exact congrArg (EStateM.Result.error halt) (Machine.gauged_self depth limited)
  · exact absurd rfl other

end Follows

end Run

namespace Evaluator

open Run.Follows

def callWith (ev : Evaluator) (invoke : Callable → List Value → Nat → Run Value) (callee : Expr)
    (paren : Token) (arguments : List Expr) : Run Value := do
  let f ← ev.eval callee
  let values ← ev.evalAll arguments []
  match f.callable? with
  | none => Run.failAt paren.line .notCallable
  | some callable =>
    let arity ← Run.ask fun m => .ok (m.heap.arity callable)
    if values.length = arity then
      Run.oneDeeper paren.line (invoke callable values paren.line)
    else Run.failAt paren.line (.wrongArity arity values.length)

theorem evalCall_eq (ev : Evaluator) (callee : Expr) (paren : Token) (arguments : List Expr) :
    ev.evalCall callee paren arguments = ev.callWith ev.invokeRule callee paren arguments :=
  rfl

section Follows

variable {ev ev' : Evaluator} {level limit limit' : Nat}

section Calls

variable (stmts : ∀ s, Run.Follows level limit limit' (ev.exec s) (ev'.exec s))

include stmts

theorem sequence_follows (body : List Stmt) :
    Run.Follows level limit limit' (ev.sequence body) (ev'.sequence body) := by
  induction body with
  | nil => exact pure _
  | cons s body ih =>
    refine (stmts s).bind fun flow => ?_
    cases flow with
    | normal => exact ih
    | returned _ | broke => exact pure _

theorem callClosure_follows (id : FunctionId) (arguments : List Value) (line : Nat) :
    Run.Follows level limit limit' (ev.callClosure id arguments line)
      (ev'.callClosure id arguments line) := by
  refine (of_onHeap (.object _)).bind fun closure => ?_
  refine (of_onHeap (.ask fun _ _ => rfl)).bind fun vars => ?_
  refine (of_onHeap (.newScope _ _)).bind fun scope => ?_
  refine ((sequence_follows stmts closure.code.body).inScope scope).bind fun flow => ?_
  exact of_onHeap (Run.OnHeap.gentle.resultOf closure line flow)

theorem construct_follows (c : ClassId) (arguments : List Value) (line : Nat) :
    Run.Follows level limit limit' (ev.construct c arguments line)
      (ev'.construct c arguments line) := by
  refine (of_onHeap (.newInstance c)).bind fun i => ?_
  refine (of_onHeap (.ask fun _ _ => rfl)).bind fun method => ?_
  cases method with
  | none => exact pure _
  | some method =>
    refine (of_onHeap (.bindMethod method i)).bind fun bound => ?_
    exact (callClosure_follows stmts bound arguments line).bind fun _ => pure _

theorem invokeRule_follows
    (calls : ∀ callee arguments line, Run.Follows level limit limit'
      (ev.invoke callee arguments line) (ev'.invoke callee arguments line))
    (callee : Callable) (arguments : List Value) (line : Nat) :
    Run.Follows level limit limit' (ev.invokeRule callee arguments line)
      (ev'.invokeRule callee arguments line) := by
  cases callee with
  | function id => exact callClosure_follows stmts id arguments line
  | classRef c => exact construct_follows stmts c arguments line
  | native id =>
    intro m here under discreet
    have natives : (m.gauged level limit').heap.natives = m.heap.natives := rfl
    unfold invokeRule callNative
    dsimp only
    rw [Run.object_bind, Run.object_bind, natives]
    cases found : m.heap.natives[id]? with
    | none => exact fail (.internal .dangling) m here under discreet
    | some native =>
      dsimp only
      cases reply : native.respond arguments line with
      | value v => exact pure v m here under discreet
      | error e => exact fail e m here under discreet
      | invoke callee arguments => exact calls callee arguments line m here under discreet
      | now => exact of_blind (fun _ _ _ => rfl) (fun _ => rfl) m here under discreet
      | act deed => exact (discreet.found found arguments line deed reply).elim

theorem runTopLevel_follows (program : List Stmt) :
    Run.Follows level limit limit' (runTopLevel ev program) (runTopLevel ev' program) := by
  induction program with
  | nil => exact pure _
  | cons s program ih =>
    refine (stmts s).bind fun flow => ?_
    cases flow with
    | normal => exact ih
    | returned _ | broke => exact fail _

end Calls

variable (exprs : ∀ e, Run.Follows level limit limit' (ev.eval e) (ev'.eval e))

include exprs

theorem evalAll_follows (es : List Expr) (found : List Value) :
    Run.Follows level limit limit' (ev.evalAll es found) (ev'.evalAll es found) := by
  induction es generalizing found with
  | nil => exact pure _
  | cons e es ih => exact (exprs e).bind fun v => ih (v :: found)

theorem callWith_follows {invoke invoke' : Callable → List Value → Nat → Run Value}
    (le : limit ≤ limit')
    (inner : level < limit → ∀ callable values line, Run.Follows (level + 1) limit limit'
      (invoke callable values line) (invoke' callable values line))
    (callee : Expr) (paren : Token) (arguments : List Expr) :
    Run.Follows level limit limit' (ev.callWith invoke callee paren arguments)
      (ev'.callWith invoke' callee paren arguments) := by
  refine (exprs callee).bind fun f => (evalAll_follows exprs arguments []).bind fun values => ?_
  cases f.callable? with
  | none => exact fail _
  | some callable =>
    refine (of_onHeap (.ask fun _ _ => rfl)).bind fun arity => ?_
    by_cases fits : values.length = arity
    · simp only [fits, if_true]
      exact oneDeeper paren.line le fun shallow => inner shallow callable values paren.line
    · simp only [fits, if_false]
      exact fail _

theorem evalRule_follows {e : Expr}
    (called : ∀ callee paren arguments, e = .call callee paren arguments →
      Run.Follows level limit limit' (ev.evalCall callee paren arguments)
        (ev'.evalCall callee paren arguments)) :
    Run.Follows level limit limit' (ev.evalRule e) (ev'.evalRule e) := by
  cases e with
  | literal _ => exact pure _
  | «variable» id name => exact of_onHeap (.readRef id name)
  | this id keyword => exact of_onHeap (.readRef id keyword)
  | super id keyword method => exact of_onHeap (Run.OnHeap.gentle.evalSuper (.ask fun _ _ => rfl) method)
  | function f => exact of_onHeap (.evalFunction f)
  | grouping e => exact exprs e
  | unary operator e => exact (exprs e).bind fun v => of_onHeap (.ask fun _ _ => rfl)
  | binary left operator right =>
    refine (exprs left).bind fun a => (exprs right).bind fun b => ?_
    exact of_onHeap (.ask fun _ _ => rfl)
  | logical left operator right =>
    refine (exprs left).bind fun a => ?_
    by_cases decided : a.isTruthy == operator.is .orKw
    · simp only [decided, if_true]
      exact pure a
    · simp only [decided]
      exact exprs right
  | assign id name e =>
    refine (exprs e).bind fun v => (of_onHeap (.writeRef id name v)).bind fun _ => pure v
  | call callee paren arguments => exact called callee paren arguments rfl
  | get e name =>
    refine (exprs e).bind fun v => ?_
    cases v with
    | instanceRef i => exact of_onHeap (Run.OnHeap.gentle.property i name)
    | _ => exact fail _
  | set object name e =>
    refine (exprs object).bind fun v => ?_
    cases v with
    | instanceRef i =>
      refine (exprs e).bind fun v => ?_
      exact (of_onHeap (.setField i name v)).bind fun _ => pure v
    | _ => exact fail _

theorem evalOptional_follows (e : Option Expr) :
    Run.Follows level limit limit' (ev.evalOptional e) (ev'.evalOptional e) := by
  cases e with
  | none => exact pure _
  | some e => exact exprs e

theorem execClass_follows (name : Token) (superclass : Option Expr) (methods : List Function) :
    Run.Follows level limit limit' (ev.execClass name superclass methods)
      (ev'.execClass name superclass methods) := by
  have above : Run.Follows level limit limit' (ev.evalSuperclass name superclass)
      (ev'.evalSuperclass name superclass) := by
    cases superclass with
    | none => exact pure _
    | some e =>
      refine (exprs e).bind fun v => ?_
      cases v with
      | classRef c => exact pure _
      | _ => exact fail _
  refine (of_onHeap (.define name .nil)).bind fun _ => above.bind fun parent => ?_
  exact of_onHeap (.makeClass name methods parent)

variable (stmts : ∀ s, Run.Follows level limit limit' (ev.exec s) (ev'.exec s))

include stmts

theorem execLoop_follows (condition : Expr) (body : Stmt) (n : Nat) :
    Run.Follows level limit limit' (ev.execLoop condition body n)
      (ev'.execLoop condition body n) := by
  induction n with
  | zero => exact of_onHeap .outOfFuel
  | succ n ih =>
    refine (exprs condition).bind fun v => ?_
    cases v.isTruthy with
    | false => exact pure _
    | true =>
      refine (stmts body).bind fun flow => ?_
      cases flow with
      | normal => exact ih
      | broke | returned _ => exact pure _

theorem execRule_follows (rounds : ev'.rounds = ev.rounds) (s : Stmt) :
    Run.Follows level limit limit' (ev.execRule s) (ev'.execRule s) := by
  cases s with
  | breakLoop _ => exact pure _
  | function f => exact of_onHeap (.execFunction f)
  | expression e => exact (exprs e).bind fun _ => pure _
  | print e => exact (exprs e).bind fun v => (print v).bind fun _ => pure _
  | var name initializer =>
    refine (evalOptional_follows exprs initializer).bind fun v => ?_
    exact (of_onHeap (.define name v)).bind fun _ => pure _
  | block body =>
    refine (of_onHeap .currentScope).bind fun outer => ?_
    refine (of_onHeap (.newScope _ _)).bind fun scope => ?_
    exact (sequence_follows stmts body).inScope scope
  | conditional condition thenBranch elseBranch =>
    refine (exprs condition).bind fun v => ?_
    cases v.isTruthy with
    | true => exact stmts thenBranch
    | false =>
      cases elseBranch with
      | none => exact pure _
      | some s => exact stmts s
  | loop condition body =>
    change Run.Follows level limit limit' (ev.execLoop condition body ev.rounds)
      (ev'.execLoop condition body ev'.rounds)
    rw [rounds]
    exact execLoop_follows exprs stmts condition body ev.rounds
  | returnFrom _ value => exact (evalOptional_follows exprs value).map Flow.returned
  | classDecl name superclass methods => exact execClass_follows exprs name superclass methods

end Follows

end Evaluator

def Task.isCallee : (outer inner : Task) → Bool
  | .expr (.call ..), .expr _ => false
  | .expr (.call ..), _ => true
  | _, _ => false

namespace Evaluator

variable {ev ev' : Evaluator} {level limit limit' : Nat}

theorem rule_follows (le : limit ≤ limit') (rounds : ev'.rounds = ev.rounds) {t : Task} (own : t.Own)
    (parts : ∀ part : Task, part.Own → (t.isCallee part → level < limit) →
      Run.Follows (level + (t.isCallee part).toNat) limit limit' (ev.answer part)
        (ev'.answer part)) :
    Run.Follows level limit limit' (ev.rule t) (ev'.rule t) := by
  -- Only what a call expression calls is one deeper; operands and bodies are as deep as the task.
  cases t with
  | expr e =>
    have exprs (e' : Expr) : Run.Follows level limit limit' (ev.eval e') (ev'.eval e') := by
      have operand : (Task.expr e).isCallee (.expr e') = false := by cases e <;> rfl
      have part := parts (.expr e') trivial
      rw [operand] at part
      exact part fun absurd => by cases absurd
    refine evalRule_follows exprs fun callee paren arguments same => ?_
    subst same
    rw [evalCall_eq, evalCall_eq]
    refine callWith_follows exprs le (fun shallow => ?_) callee paren arguments
    exact invokeRule_follows (fun s => parts (.stmt s) trivial fun _ => shallow)
      fun callee arguments line => parts (.call callee arguments line) trivial fun _ => shallow
  | stmt s =>
    have here (part : Task) (own : part.Own) :
        Run.Follows level limit limit' (ev.answer part) (ev'.answer part) :=
      parts part own fun absurd => by cases absurd
    exact execRule_follows (fun e => here (.expr e) trivial) (fun s => here (.stmt s) trivial)
      rounds s
  | call callee arguments line =>
    have here (part : Task) (own : part.Own) :
        Run.Follows level limit limit' (ev.answer part) (ev'.answer part) :=
      parts part own fun absurd => by cases absurd
    exact invokeRule_follows (fun s => here (.stmt s) trivial)
      (fun callee arguments line => here (.call callee arguments line) trivial) callee arguments line
  | act deed line => exact own.elim

theorem withFuel_follows (le : limit ≤ limit') (n : Nat) {t : Task} (own : t.Own) (level : Nat) :
    Run.Follows level limit limit' ((withFuel n).answer t) ((withFuel n).answer t) := by
  induction n generalizing t level with
  | zero =>
    rw [answer_zero]
    exact .of_onHeap .outOfFuel
  | succ n ih =>
    rw [answer_succ]
    exact rule_follows le rfl own fun part own _ => ih own _

end Evaluator

theorem ComesTo.depth_eq {α : Type} {x : Evaluator → Run α} {n : Nat} {m m₁ : Machine} {t : Task}
    (discreet : m.heap.Discreet) {A : Task → Prop} (own : ∀ part, A part → part.Own)
    (raise : Task → Nat)
    (follows : ∀ ev', ev'.rounds = (Evaluator.withFuel n).rounds →
      (∀ part, A part → Run.Follows (m.depth + raise part) m.maxDepth m.maxDepth
        ((Evaluator.withFuel n).answer part) (ev'.answer part)) →
      Run.Follows m.depth m.maxDepth m.maxDepth (x (.withFuel n)) (x ev'))
    (comes : ComesTo x (.withFuel n) m t m₁) :
    A t ∧ m₁.depth = m.depth + raise t ∧ m₁.maxDepth = m.maxDepth := by
  by_contra elsewhere
  -- A cut at another depth is not felt.
  refine comes.felt (x (.withFuel n) m) fun halt m' => ?_
  refine (follows ((Evaluator.withFuel n).cut t m₁ halt m') rfl
    fun part allowed m₂ here under discreet => ?_).eq_of_self rfl rfl discreet
  rw [Evaluator.answer_cut_of_ne]
  · exact Evaluator.withFuel_follows (Nat.le_refl _) n (own part allowed) _ m₂ here under discreet
  · rintro ⟨rfl, rfl⟩
    exact elsewhere ⟨allowed, rfl, rfl⟩

theorem Moment.Part.depth {a b : Moment} (part : a.Part b) (own : b.task.Own)
    (discreet : b.machine.heap.Discreet) :
    (b.task.isCallee a.task → b.machine.depth < b.machine.maxDepth) ∧
      a.machine.depth = b.machine.depth + (b.task.isCallee a.task).toNat ∧
      a.machine.maxDepth = b.machine.maxDepth := by
  have inner := part.2.depth_eq discreet
    (A := fun t => t.Own ∧ (b.task.isCallee t → b.machine.depth < b.machine.maxDepth))
    (fun _ => And.left) (fun t => (b.task.isCallee t).toNat) fun _ rounds parts =>
      Evaluator.rule_follows (Nat.le_refl _) rounds own fun t own' allowed => parts t ⟨own', allowed⟩
  exact ⟨inner.1.2, inner.2⟩

theorem Episode.ComesFirstTo.depth {r : Episode} {a : Moment} (comes : r.ComesFirstTo a)
    (discreet : r.machine.heap.Discreet) :
    a.machine.depth = r.machine.depth ∧ a.machine.maxDepth = r.machine.maxDepth :=
  (comes.2.depth_eq discreet (A := Task.Own) (fun _ => id) (fun _ => 0) fun _ _ parts =>
    Evaluator.runTopLevel_follows (fun s => parts (.stmt s) trivial) r.program).2

def Moment.running : List Moment → Nat
  | a :: b :: around => running (b :: around) + (b.task.isCallee a.task).toNat
  | _ => 0

theorem Episode.Path.depth {r : Episode} (fresh : r.machine.depth = 0)
    (discreet : r.machine.heap.Discreet) {a : Moment} {around : List Moment}
    (path : r.Path (a :: around)) :
    a.machine.depth = Moment.running (a :: around) ∧ a.machine.depth ≤ a.machine.maxDepth := by
  generalize same : a :: around = whole at path
  induction path generalizing a around with
  | first comes =>
    cases same
    have start := (comes.depth discreet).1.trans fresh
    exact ⟨start, by omega⟩
  | @part a b _ path part ih =>
    cases same
    obtain ⟨counted, bounded⟩ := ih rfl
    obtain ⟨within, holds⟩ := path.within Realm.whole_quiet trivial (Realm.whole_holds discreet)
    obtain ⟨shallow, depth, limit⟩ := part.depth (within.own Realm.whole_quiet)
      (holds.discreet Realm.whole_quiet)
    refine ⟨by rw [depth, counted]; rfl, ?_⟩
    cases callee : b.task.isCallee a.task with
    | false =>
      simp only [callee, Bool.toNat_false] at depth
      omega
    | true =>
      simp only [callee, Bool.toNat_true] at depth
      have below := shallow callee
      omega

open Classical in
noncomputable def Evaluator.cutCall (ev : Evaluator) (callable : Callable) (values : List Value)
    (m : Machine) (halt : Halt) (m' : Machine) : Callable → List Value → Nat → Run Value :=
  fun callable' values' line m₁ =>
    if callable' = callable ∧ values' = values ∧ m₁ = m then .error halt m'
    else ev.invokeRule callable' values' line m₁

def Moment.Enters (a : Moment) (callable : Callable) (values : List Value) (m : Machine) : Prop :=
  ∃ n callee paren arguments, a.fuel = n + 1 ∧ a.task = .expr (.call callee paren arguments) ∧
    ∀ halt m', ∃ m'', (Evaluator.withFuel n).callWith
      ((Evaluator.withFuel n).cutCall callable values m halt m') callee paren arguments a.machine =
        .error halt m''

theorem Moment.Enters.depth {a : Moment} {callable : Callable} {values : List Value} {m : Machine}
    (enters : a.Enters callable values m) (discreet : a.machine.heap.Discreet) :
    a.machine.depth < a.machine.maxDepth ∧ m.depth = a.machine.depth + 1 ∧
      m.maxDepth = a.machine.maxDepth := by
  obtain ⟨n, callee, paren, arguments, -, -, fails⟩ := enters
  -- Otherwise the call would not be entered, and it would not matter how it is cut off.
  by_contra elsewhere
  let ev := Evaluator.withFuel n
  have level := Nat.le_refl a.machine.maxDepth
  have unfelt (halt : Halt) (m' : Machine) :
      ev.callWith (ev.cutCall callable values m halt m') callee paren arguments a.machine =
        ev.callWith ev.invokeRule callee paren arguments a.machine := by
    refine (Evaluator.callWith_follows
      (fun e => Evaluator.withFuel_follows level n (t := .expr e) trivial _) level
      (fun shallow callable' values' line m₂ here under discreet => ?_)
      callee paren arguments).eq_of_self rfl rfl discreet
    have kept := Evaluator.invokeRule_follows
      (fun s => Evaluator.withFuel_follows level n (t := .stmt s) trivial _)
      (fun callee arguments line =>
        Evaluator.withFuel_follows level n (t := .call callee arguments line) trivial _)
      callable' values' line m₂ here under discreet
    unfold Evaluator.cutCall
    rw [if_neg]
    · exact kept
    · rintro ⟨-, -, rfl⟩
      exact elsewhere ⟨shallow, rfl, rfl⟩
  obtain ⟨m₁, first⟩ := fails .outOfFuel m
  obtain ⟨m₂, second⟩ := fails (.error (.io .sinkFull)) m
  rw [unfelt] at first second
  rw [first] at second
  cases second

end Quill
