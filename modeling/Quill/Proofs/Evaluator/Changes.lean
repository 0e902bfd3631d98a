import Quill.Proofs.Evaluator.Initializers
import Quill.Proofs.Evaluator.Steps

set_option autoImplicit false

namespace Quill

structure Heap.Respect (R : Heap → Heap → Prop) : Prop where
  calm : ∀ {h h' : Heap}, h.Undisturbed h' → R h h'
  trans : ∀ {h h' h'' : Heap}, R h h' → R h' h'' → R h h''

theorem Heap.Respect.refl {R : Heap → Heap → Prop} (respect : Respect R) (h : Heap) : R h h :=
  respect.calm (.refl h)

def Run.Keeps (R : Heap → Heap → Prop) {α : Type} (x : Run α) : Prop :=
  ∀ m : Machine, R m.heap (machineOf (x m)).heap

theorem Heap.Respect.bind {R : Heap → Heap → Prop} (respect : Respect R) {α β : Type} {x : Run α}
    {f : α → Run β} {m : Machine} (first : R m.heap (machineOf (x m)).heap)
    (next : ∀ a m', x m = .ok a m' → R m'.heap (machineOf (f a m')).heap) :
    R m.heap (machineOf ((x >>= f) m)).heap := by
  rw [Run.bind_eq_match]
  cases result : x m with
  | ok a m' =>
    rw [result] at first
    exact respect.trans first (next a m' result)
  | error halt m' =>
    rw [result] at first
    exact first

theorem Run.Keeps.woven {R : Heap → Heap → Prop} (respect : Heap.Respect R) :
    Run.Woven (Run.Keeps R) where
  own _ calm m := respect.calm (calm m)
  print v m := by
    unfold Run.print
    simp only
    split <;> exact respect.refl m.heap
  readClock m := respect.refl m.heap
  bind first next m := respect.bind (first m) fun a m' _ => next a m'
  inScope {_ x} s inner m := by
    have done := inner { m with scope := s }
    unfold Run.inScope
    simp only
    cases result : x { m with scope := s } <;> rw [result] at done <;> exact done
  oneDeeper {_ x} line inner m := by
    have done := inner { m with depth := m.depth + 1 }
    unfold Run.oneDeeper
    simp only
    split
    · exact respect.refl m.heap
    · cases result : x { m with depth := m.depth + 1 } <;> rw [result] at done <;> exact done

namespace Evaluator

inductive Sets (ev : Evaluator) : Task → Machine → InstanceId → Token → Value → Machine → Prop where
  | set {object e : Expr} {name : Token} {m m₁ m₂ : Machine} {i : InstanceId} {v : Value} :
      ev.eval object m = .ok (.instanceRef i) m₁ → ev.eval e m₁ = .ok v m₂ →
      Sets ev (.expr (.set object name e)) m i name v m₂

inductive Makes (ev : Evaluator) :
    Task → Machine → Token → Option ClassId → List Function → Machine → Prop where
  | classDecl {name : Token} {superclass : Option Expr} {methods : List Function}
      {m m₁ m₂ : Machine} {parent : Option ClassId} : Run.define name .nil m = .ok () m₁ →
      ev.evalSuperclass name superclass m₁ = .ok parent m₂ →
      Makes ev (.stmt (.classDecl name superclass methods)) m name parent methods m₂

structure Spares (ev : Evaluator) (R : Heap → Heap → Prop) (t : Task) (m : Machine) : Prop where
  sets : ∀ {i : InstanceId} {name : Token} {v : Value} {m₁ : Machine}, ev.Sets t m i name v m₁ →
    R m₁.heap (m₁.heap.setField i name.lexeme v)
  makes : ∀ {name : Token} {parent : Option ClassId} {methods : List Function} {m₁ : Machine},
    ev.Makes t m name parent methods m₁ →
    R m₁.heap (machineOf (buildClass name parent methods m₁)).heap

section Keeps

variable {R : Heap → Heap → Prop} (respect : Heap.Respect R) {ev ev' : Evaluator} {m : Machine}
  (answers : ∀ t : Task, Run.Keeps R (ev.answer t))

include respect answers

theorem evalSet_keeps {object e : Expr} {name : Token}
    (spares : ev.Spares R (.expr (.set object name e)) m) :
    R m.heap (machineOf (ev.evalSet object name e m)).heap := by
  refine respect.bind (answers (.expr object) m) fun v m₁ found => ?_
  cases v with
  | instanceRef i =>
    exact respect.bind (answers (.expr e) m₁) fun v m₂ given => spares.sets (.set found given)
  | _ => exact respect.refl m₁.heap

theorem execClass_keeps {name : Token} {superclass : Option Expr} {methods : List Function}
    (spares : ev.Spares R (.stmt (.classDecl name superclass methods)) m) :
    R m.heap (machineOf (ev.execClass name superclass methods m)).heap := by
  refine respect.bind (respect.calm (Run.Calm.define name .nil m)) fun _ m₁ defined => ?_
  have above : Run.Keeps R (ev.evalSuperclass name superclass) :=
    evalSuperclass_woven (Run.Keeps.woven respect) (fun t _ => answers t) name superclass
  exact respect.bind (above m₁) fun parent m₂ known => spares.makes (.classDecl defined known)

theorem rule_keeps {t : Task} (own : t.Own) (spares : ev.Spares R t m) :
    R m.heap (machineOf (ev.rule t m)).heap := by
  -- Only the two rules that are not modest do more than to weave what their parts do.
  by_cases modest : t.Modest
  · have woven := Run.Keeps.woven respect
    exact rule_woven woven (fun t _ => answers t) (callNative_woven woven answers) t modest m
  · cases t with
    | expr e =>
      cases e with
      | set object name e => exact evalSet_keeps respect answers spares
      | _ => exact absurd trivial modest
    | stmt s =>
      cases s with
      | classDecl name superclass methods => exact execClass_keeps respect answers spares
      | _ => exact absurd trivial modest
    | call callee arguments line => exact absurd trivial modest
    | act deed line => exact own.elim

end Keeps

def Under (ev' ev : Evaluator) : Prop :=
  ∀ t m a m', ev'.answer t m = .ok a m' → ev.answer t m = .ok a m'

theorem under_only (ev : Evaluator) (P : Task → Machine → Prop) : (ev.only P).Under ev := by
  intro t m a m' answer
  by_cases asked : P t m
  · rwa [answer_only asked] at answer
  · rw [answer_only_of_not asked] at answer
    cases answer

theorem under_cut (ev : Evaluator) (t : Task) (m : Machine) (halt : Halt) (m' : Machine) :
    (ev.cut t m halt m').Under ev := by
  intro t₁ m₁ a m₂ answer
  by_cases same : t₁ = t ∧ m₁ = m
  · obtain ⟨rfl, rfl⟩ := same
    rw [answer_cut_self] at answer
    cases answer
  · rwa [answer_cut_of_ne same] at answer

theorem Under.trans {ev ev' ev'' : Evaluator} (first : ev''.Under ev') (second : ev'.Under ev) :
    ev''.Under ev :=
  fun t m a m' answer => second t m a m' (first t m a m' answer)

section Under

variable {ev ev' : Evaluator} (under : ev'.Under ev) {t : Task} {m m₁ : Machine}

include under

theorem Under.sets {i : InstanceId} {name : Token} {v : Value}
    (sets : ev'.Sets t m i name v m₁) : ev.Sets t m i name v m₁ := by
  cases sets with
  | @set object e _ _ _ _ _ _ found given =>
    exact .set (under (.expr object) _ _ _ found) (under (.expr e) _ _ _ given)

theorem Under.makes {name : Token} {parent : Option ClassId} {methods : List Function}
    (makes : ev'.Makes t m name parent methods m₁) : ev.Makes t m name parent methods m₁ := by
  cases makes with
  | @classDecl _ superclass _ _ m₂ _ _ defined known =>
    refine .classDecl defined ?_
    cases superclass with
    | none => exact known
    | some e =>
      obtain ⟨v, m₃, found, rest⟩ := Run.of_bind_ok known
      exact (Run.bind_of_ok (under (.expr e) _ _ _ found)).trans rest

theorem Under.spares {R : Heap → Heap → Prop} (spares : ev.Spares R t m) : ev'.Spares R t m :=
  ⟨fun sets => spares.sets (under.sets sets), fun makes => spares.makes (under.makes makes)⟩

end Under

end Evaluator

def Conducts {α : Type} (R : Heap → Heap → Prop) (x : Evaluator → Run α) (ev : Evaluator)
    (m : Machine) : Prop :=
  ∀ ev' : Evaluator, ev'.Under ev → (∀ t, Run.Keeps R (ev'.answer t)) →
    R m.heap (machineOf (x ev' m)).heap

theorem conducts_rule {R : Heap → Heap → Prop} (respect : Heap.Respect R) {ev : Evaluator}
    {t : Task} {m : Machine} (own : t.Own) (spares : ev.Spares R t m) :
    Conducts R (fun ev => ev.rule t) ev m :=
  fun _ under answers => Evaluator.rule_keeps respect answers own (under.spares spares)

theorem conducts_runTopLevel {R : Heap → Heap → Prop} (respect : Heap.Respect R) (ev : Evaluator)
    (program : List Stmt) (m : Machine) : Conducts R (fun ev => runTopLevel ev program) ev m :=
  fun _ _ answers =>
    Evaluator.runTopLevel_woven (Run.Keeps.woven respect) (fun t _ => answers t) program m

namespace Conducts

variable {R : Heap → Heap → Prop} (respect : Heap.Respect R) {α : Type} {P : Prop}
  {x : Evaluator → Run α} {ev : Evaluator} {m : Machine}
  (conducts : Conducts R x ev m) (dialogic : Dialogic ev.rounds P x)
  (inner : ∀ t m', ComesTo x ev m t m' → R m'.heap (machineOf (ev.answer t m')).heap)

include respect conducts dialogic inner

theorem whole : R m.heap (machineOf (x ev m)).heap := by
  -- What the run never asks for need not keep anything, so there it is asked for nothing.
  rw [← dialogic.only m]
  refine conducts _ (ev.under_only _) fun t m' => ?_
  by_cases comes : ComesTo x ev m t m'
  · rw [Evaluator.answer_only comes]
    exact inner t m' comes
  · rw [Evaluator.answer_only_of_not comes]
    exact respect.refl m'.heap

theorem into (holds : P) (orderly : ev.Orderly) (tidy : m.heap.Tidy) {t : Task} {m₁ : Machine}
    (comes : ComesTo x ev m t m₁) : R m.heap m₁.heap := by
  -- A run that is cut short there ends with the heap it has there.
  let cut := ev.cut t m₁ .outOfFuel m₁
  have short : Conducts R x cut m := fun ev' under answers =>
    conducts ev' (under.trans (ev.under_cut t m₁ .outOfFuel m₁)) answers
  have kept : R m.heap (machineOf (x cut m)).heap := by
    refine whole respect short dialogic fun t' m' comes' => ?_
    by_cases same : t' = t ∧ m' = m₁
    · obtain ⟨rfl, rfl⟩ := same
      rw [Evaluator.answer_cut_self]
      exact respect.refl m'.heap
    · rw [Evaluator.answer_cut_of_ne same]
      exact inner t' m' (comes'.of_cut dialogic)
  obtain ⟨d, same, orderly'⟩ := dialogic
  have asks := (comesTo_iff_asks (fun ev' fuel => same ev' fuel m) t m₁).mp comes
  have heap := (orderly' holds m tidy).cut_heap orderly asks .outOfFuel m₁
  rw [same cut rfl, heap] at kept
  exact kept

theorem proceeds (holds : P) (orderly : ev.Orderly) (tidy : m.heap.Tidy) {m₁ m₂ : Machine}
    (proceeds : Proceeds x ev m m₁ m₂) : R m.heap m₁.heap ∧ R m.heap m₂.heap := by
  have whole := whole respect conducts dialogic inner
  have into {t : Task} {m' : Machine} (comes : ComesTo x ev m t m') :=
    into respect conducts dialogic inner holds orderly tidy comes
  cases proceeds with
  | whole => exact ⟨respect.refl m.heap, whole⟩
  | into comes => exact ⟨respect.refl m.heap, into comes⟩
  | next first second _ => exact ⟨respect.trans (into first) (inner _ _ first), into second⟩
  | out comes => exact ⟨respect.trans (into comes) (inner _ _ comes), whole⟩

end Conducts

namespace Moment

variable {R : Heap → Heap → Prop}

def Keeps (R : Heap → Heap → Prop) (a : Moment) : Prop :=
  R a.machine.heap (machineOf a.result).heap

def Sets (a : Moment) (i : InstanceId) (name : Token) (v : Value) (m : Machine) : Prop :=
  ∃ n, a.fuel = n + 1 ∧ (Evaluator.withFuel n).Sets a.task a.machine i name v m

def Makes (a : Moment) (name : Token) (parent : Option ClassId) (methods : List Function)
    (m : Machine) : Prop :=
  ∃ n, a.fuel = n + 1 ∧ (Evaluator.withFuel n).Makes a.task a.machine name parent methods m

structure Spares (R : Heap → Heap → Prop) (a : Moment) : Prop where
  sets : ∀ {i : InstanceId} {name : Token} {v : Value} {m : Machine}, a.Sets i name v m →
    R m.heap (m.heap.setField i name.lexeme v)
  makes : ∀ {name : Token} {parent : Option ClassId} {methods : List Function} {m : Machine},
    a.Makes name parent methods m →
    R m.heap (machineOf (Evaluator.buildClass name parent methods m)).heap

theorem Spares.rule {n : Nat} {t : Task} {m : Machine} (spares : Spares R ⟨n + 1, t, m⟩) :
    (Evaluator.withFuel n).Spares R t m :=
  ⟨fun sets => spares.sets ⟨n, rfl, sets⟩, fun makes => spares.makes ⟨n, rfl, makes⟩⟩

theorem keeps_of_spares (respect : Heap.Respect R) {P : Moment → Prop}
    (parts : ∀ {a b : Moment}, a.Part b → P b → P a)
    (spares : ∀ a, P a → a.task.Own ∧ a.Spares R) {b : Moment} (there : P b) : b.Keeps R := by
  obtain ⟨n, t, m⟩ := b
  -- On the fuel: what a rule comes to is asked of an evaluator with less.
  induction n generalizing t m with
  | zero =>
    unfold Keeps result
    rw [Evaluator.answer_withFuel_zero]
    exact respect.refl m.heap
  | succ n ih =>
    obtain ⟨own, kept⟩ := spares ⟨n + 1, t, m⟩ there
    have conducts := conducts_rule respect own kept.rule
    unfold Keeps result
    rw [Evaluator.answer_withFuel_succ]
    exact conducts.whole respect (.rule own) fun t' m' comes => ih t' m' (parts ⟨rfl, comes⟩ there)

theorem Part.keeps_into (respect : Heap.Respect R) {P : Moment → Prop}
    (parts : ∀ {a b : Moment}, a.Part b → P b → P a)
    (spares : ∀ a, P a → a.task.Own ∧ a.Spares R) {a b : Moment} (part : a.Part b) (there : P b)
    (wf : b.task.WellFormed)
    (tidy : b.machine.heap.Tidy) : R b.machine.heap a.machine.heap := by
  obtain ⟨n, t, m⟩ := b
  obtain ⟨n', t', m'⟩ := a
  cases part.1
  obtain ⟨own, kept⟩ := spares ⟨n' + 1, t, m⟩ there
  have conducts := conducts_rule respect own kept.rule
  refine conducts.into respect (.rule own) (fun t' m' comes => ?_) wf
    (Evaluator.orderly_withFuel n') tidy part.2
  have there' : P ⟨n', t', m'⟩ := parts ⟨rfl, comes⟩ there
  exact keeps_of_spares respect parts spares there'

end Moment

end Quill
