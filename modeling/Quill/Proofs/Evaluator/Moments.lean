import Quill.Proofs.Evaluator.Dialogue

set_option autoImplicit false

namespace Quill

namespace Evaluator

open Classical in
noncomputable def cut (ev : Evaluator) (t : Task) (m : Machine) (halt : Halt) (m' : Machine) :
    Evaluator where
  rounds := ev.rounds
  eval e m₁ := if .expr e = t ∧ m₁ = m then .error halt m' else ev.eval e m₁
  exec s m₁ := if .stmt s = t ∧ m₁ = m then .error halt m' else ev.exec s m₁
  invoke callee arguments line m₁ :=
    if .call callee arguments line = t ∧ m₁ = m then .error halt m'
    else ev.invoke callee arguments line m₁
  act deed line m₁ := if .act deed line = t ∧ m₁ = m then .error halt m' else ev.act deed line m₁

variable {ev : Evaluator} {t : Task} {m m' : Machine} {halt : Halt}

theorem answer_cut_self : (ev.cut t m halt m').answer t m = .error halt m' := by
  cases t <;> exact if_pos ⟨rfl, rfl⟩

theorem answer_cut_of_ne {t₁ : Task} {m₁ : Machine} (other : ¬ (t₁ = t ∧ m₁ = m)) :
    (ev.cut t m halt m').answer t₁ m₁ = ev.answer t₁ m₁ := by
  cases t₁ <;> exact if_neg other

theorem cut_eq_self (fails : ev.answer t m = .error halt m') : ev.cut t m halt m' = ev := by
  obtain ⟨rounds, eval, exec, invoke, act⟩ := ev
  unfold cut
  congr
  · funext e m₁
    split
    next same =>
      obtain ⟨rfl, rfl⟩ := same
      exact fails.symm
    next => rfl
  · funext s m₁
    split
    next same =>
      obtain ⟨rfl, rfl⟩ := same
      exact fails.symm
    next => rfl
  · funext callee arguments line m₁
    split
    next same =>
      obtain ⟨rfl, rfl⟩ := same
      exact fails.symm
    next => rfl
  · funext deed line m₁
    split
    next same =>
      obtain ⟨rfl, rfl⟩ := same
      exact fails.symm
    next => rfl

open Classical in
noncomputable def only (ev : Evaluator) (P : Task → Machine → Prop) : Evaluator where
  rounds := ev.rounds
  eval e m := if P (.expr e) m then ev.eval e m else .error .outOfFuel m
  exec s m := if P (.stmt s) m then ev.exec s m else .error .outOfFuel m
  invoke callee arguments line m :=
    if P (.call callee arguments line) m then ev.invoke callee arguments line m
    else .error .outOfFuel m
  act deed line m := if P (.act deed line) m then ev.act deed line m else .error .outOfFuel m

variable {P : Task → Machine → Prop}

theorem answer_only (h : P t m) : (ev.only P).answer t m = ev.answer t m := by
  cases t <;> exact if_pos h

theorem answer_only_of_not (h : ¬ P t m) : (ev.only P).answer t m = .error .outOfFuel m := by
  cases t <;> exact if_neg h

end Evaluator

def ComesTo {α : Type} (x : Evaluator → Run α) (ev : Evaluator) (m : Machine) (t : Task)
    (m₁ : Machine) : Prop :=
  ∀ halt m', ∃ m'', x (ev.cut t m₁ halt m') m = .error halt m''

namespace Dialogue

variable {α : Type} {ev ev' : Evaluator} {t : Task} {m : Machine}

inductive Asks (ev : Evaluator) : Dialogue α → Task → Machine → Prop where
  | here (t : Task) (m : Machine) (restore : Machine → Machine)
      (next : t.Result → Machine → Dialogue α) : Asks ev (.ask t m restore next) t m
  | later {t t' : Task} {m m' m₁ : Machine} {restore : Machine → Machine}
      {next : t.Result → Machine → Dialogue α} {a : t.Result} :
      ev.answer t m = .ok a m₁ → Asks ev (next a m₁) t' m' → Asks ev (.ask t m restore next) t' m'

theorem run_congr {d : Dialogue α}
    (agree : ∀ t m, d.Asks ev t m → ev'.answer t m = ev.answer t m) : d.run ev' = d.run ev := by
  induction d with
  | done result => rfl
  | ask t m restore next ih =>
    unfold run
    rw [agree t m (.here ..)]
    cases answer : ev.answer t m with
    | ok a m' => exact ih a m' fun t' m' asks => agree t' m' (.later answer asks)
    | error halt m' => rfl

theorem Asks.run_cut {d : Dialogue α} (asks : d.Asks ev t m) (halt : Halt) (m' : Machine) :
    ∃ m'', d.run (ev.cut t m halt m') = .error halt m'' := by
  induction asks with
  | here t m restore next =>
    refine ⟨restore m', ?_⟩
    unfold run
    rw [Evaluator.answer_cut_self]
  | @later t₁ t m₁ m _ restore next a answer asks ih =>
    by_cases same : t₁ = t ∧ m₁ = m
    · obtain ⟨rfl, rfl⟩ := same
      refine ⟨restore m', ?_⟩
      unfold run
      rw [Evaluator.answer_cut_self]
    · unfold run
      rw [Evaluator.answer_cut_of_ne same, answer]
      exact ih

theorem Asks.of_cut {d : Dialogue α} {t₁ : Task} {m₁ m' : Machine} {halt : Halt}
    (asks : d.Asks (ev.cut t₁ m₁ halt m') t m) : d.Asks ev t m := by
  induction asks with
  | here t m restore next => exact .here t m restore next
  | @later t₂ t m₂ m _ restore next a answer asks ih =>
    by_cases same : t₂ = t₁ ∧ m₂ = m₁
    · obtain ⟨rfl, rfl⟩ := same
      rw [Evaluator.answer_cut_self] at answer
      cases answer
    · rw [Evaluator.answer_cut_of_ne same] at answer
      exact .later answer ih

end Dialogue

section Dialogic

variable {α : Type} {P : Prop} {x : Evaluator → Run α} {ev : Evaluator} {m : Machine}

theorem comesTo_iff_asks {d : Dialogue α} (same : ∀ ev', ev'.rounds = ev.rounds → x ev' m = d.run ev')
    (t : Task) (m₁ : Machine) : ComesTo x ev m t m₁ ↔ d.Asks ev t m₁ := by
  constructor
  · intro comes
    by_contra silent
    -- A cut that nothing asks about is not felt, so the run would have to fail in two ways.
    have unfelt (halt : Halt) : ∃ m'', x ev m = .error halt m'' := by
      obtain ⟨m'', fails⟩ := comes halt m
      refine ⟨m'', ?_⟩
      rw [same ev rfl, ← fails, same (ev.cut t m₁ halt m) rfl]
      refine (Dialogue.run_congr fun t' m' asks => Evaluator.answer_cut_of_ne ?_).symm
      rintro ⟨rfl, rfl⟩
      exact silent asks
    obtain ⟨m₂, first⟩ := unfelt .outOfFuel
    obtain ⟨m₃, second⟩ := unfelt (.error (.io .sinkFull))
    rw [first] at second
    cases second
  · intro asks halt m'
    rw [same (ev.cut t m₁ halt m') rfl]
    exact asks.run_cut halt m'

theorem Dialogic.only (dialogic : Dialogic ev.rounds P x) (m : Machine) :
    x (ev.only (ComesTo x ev m)) m = x ev m := by
  obtain ⟨d, same, -⟩ := dialogic
  rw [same (ev.only (ComesTo x ev m)) rfl, same ev rfl]
  refine Dialogue.run_congr fun t m' asks => Evaluator.answer_only ?_
  exact (comesTo_iff_asks (fun ev' fuel => same ev' fuel m) t m').mpr asks

theorem ComesTo.of_cut {t t₁ : Task} {m' m₁ m₂ : Machine} {halt : Halt}
    (dialogic : Dialogic ev.rounds P x) (comes : ComesTo x (ev.cut t₁ m₁ halt m₂) m t m') :
    ComesTo x ev m t m' := by
  obtain ⟨d, same, -⟩ := dialogic
  have same' : ∀ ev', ev'.rounds = (ev.cut t₁ m₁ halt m₂).rounds → x ev' m = (d m).run ev' :=
    fun ev' fuel => same ev' fuel m
  have asks := (comesTo_iff_asks same' t m').mp comes
  exact (comesTo_iff_asks (fun ev' fuel => same ev' fuel m) t m').mpr asks.of_cut

theorem ComesTo.fails {t : Task} {m₁ m' : Machine} {halt : Halt} (comes : ComesTo x ev m t m₁)
    (fails : ev.answer t m₁ = .error halt m') : ∃ m'', x ev m = .error halt m'' := by
  obtain ⟨m'', failed⟩ := comes halt m'
  rw [Evaluator.cut_eq_self fails] at failed
  exact ⟨m'', failed⟩

end Dialogic

namespace ComesTo

variable {α β : Type} {P : Prop} {x : Evaluator → Run α} {f : Evaluator → α → Run β}
  {ev : Evaluator} {m m₁ : Machine} {t : Task}

theorem task (t : Task) : ComesTo (fun ev => ev.answer t) ev m t m :=
  fun _ m' => ⟨m', Evaluator.answer_cut_self⟩

theorem bind (comes : ComesTo x ev m t m₁) : ComesTo (fun ev => x ev >>= f ev) ev m t m₁ := by
  intro halt m'
  obtain ⟨m'', failed⟩ := comes halt m'
  exact ⟨m'', Run.bind_of_error failed⟩

theorem bind_ok {a : α} {m' : Machine} (first : Dialogic ev.rounds P x)
    (result : x ev m = .ok a m') (comes : ComesTo (fun ev => f ev a) ev m' t m₁) :
    ComesTo (fun ev => x ev >>= f ev) ev m t m₁ := by
  -- The cut could be felt before; then the run fails all the earlier.
  by_cases early : ComesTo x ev m t m₁
  · exact early.bind
  · obtain ⟨d, same, -⟩ := first
    rw [comesTo_iff_asks (fun ev' fuel => same ev' fuel m)] at early
    intro halt m₂
    have unfelt : x (ev.cut t m₁ halt m₂) m = .ok a m' := by
      rw [← result, same ev rfl, same (ev.cut t m₁ halt m₂) rfl]
      refine Dialogue.run_congr fun t' m' asks => Evaluator.answer_cut_of_ne ?_
      rintro ⟨rfl, rfl⟩
      exact early asks
    obtain ⟨m'', failed⟩ := comes halt m₂
    exact ⟨m'', (Run.bind_of_ok unfelt).trans failed⟩

theorem const_bind {x : Run α} {a : α} {m' : Machine} (result : x m = .ok a m')
    (comes : ComesTo (fun ev => f ev a) ev m' t m₁) :
    ComesTo (fun ev => x >>= f ev) ev m t m₁ :=
  bind_ok (.const False.elim) result comes

theorem ask_bind {g : Machine → Except Error α} {a : α} (found : g m = .ok a)
    (comes : ComesTo (fun ev => f ev a) ev m t m₁) :
    ComesTo (fun ev => Run.ask g >>= f ev) ev m t m₁ := by
  refine const_bind ?_ comes
  unfold Run.ask
  rw [found]

theorem object_bind {g : Heap → Option α} {a : α} (found : g m.heap = some a)
    (comes : ComesTo (fun ev => f ev a) ev m t m₁) :
    ComesTo (fun ev => Run.object g >>= f ev) ev m t m₁ := by
  refine const_bind ?_ comes
  unfold Run.object
  rw [found]

theorem inScope {s : ScopeId} (comes : ComesTo x ev { m with scope := s } t m₁) :
    ComesTo (fun ev => Run.inScope s (x ev)) ev m t m₁ := by
  intro halt m'
  obtain ⟨m'', failed⟩ := comes halt m'
  refine ⟨{ m'' with scope := m.scope }, ?_⟩
  unfold Run.inScope
  simp only [failed]

theorem oneDeeper {line : Nat} (shallow : m.depth < m.maxDepth)
    (comes : ComesTo x ev { m with depth := m.depth + 1 } t m₁) :
    ComesTo (fun ev => Run.oneDeeper line (x ev)) ev m t m₁ := by
  intro halt m'
  obtain ⟨m'', failed⟩ := comes halt m'
  refine ⟨{ m'' with depth := m.depth }, ?_⟩
  unfold Run.oneDeeper
  simp only [failed, Nat.not_le_of_lt shallow, if_false]

end ComesTo

/-- Something that is run on a machine, and the fuel left for it. -/
structure Moment where
  fuel : Nat
  task : Task
  machine : Machine

namespace Moment

def result (a : Moment) : EStateM.Result Halt Machine a.task.Result :=
  (Evaluator.withFuel a.fuel).answer a.task a.machine

def Part (a b : Moment) : Prop :=
  b.fuel = a.fuel + 1 ∧
    ComesTo (fun ev => ev.rule b.task) (.withFuel a.fuel) b.machine a.task a.machine

end Moment

/-- A program that is run on a machine. -/
structure Episode where
  fuel : Nat
  program : List Stmt
  machine : Machine

namespace Episode

def result (r : Episode) : EStateM.Result Halt Machine Unit :=
  runTopLevel (.withFuel r.fuel) r.program r.machine

def ComesFirstTo (r : Episode) (a : Moment) : Prop :=
  a.fuel = r.fuel ∧
    ComesTo (fun ev => runTopLevel ev r.program) (.withFuel r.fuel) r.machine a.task a.machine

/-- A moment of a run, and before it those it happens within, the innermost first. -/
inductive Path (r : Episode) : List Moment → Prop where
  | first {a : Moment} : r.ComesFirstTo a → Path r [a]
  | part {a b : Moment} {around : List Moment} :
      Path r (b :: around) → a.Part b → Path r (a :: b :: around)

theorem Path.fails {r : Episode} {a : Moment} {around : List Moment} {halt : Halt} {m' : Machine}
    (path : r.Path (a :: around)) (fails : a.result = .error halt m') :
    ∃ m'', r.result = .error halt m'' := by
  generalize same : a :: around = whole at path
  induction path generalizing a around m' with
  | first comes =>
    cases same
    unfold Moment.result at fails
    rw [comes.1] at fails
    exact comes.2.fails fails
  | @part a b _ _ part ih =>
    cases same
    obtain ⟨m'', fails'⟩ := part.2.fails fails
    have whole : b.result = .error halt m'' := by
      unfold Moment.result
      rw [part.1, Evaluator.answer_withFuel_succ]
      exact fails'
    exact ih whole rfl

end Episode

end Quill
