import Quill.Proofs.Evaluator.Moments

set_option autoImplicit false

namespace Quill

def Evaluator.Orderly (ev : Evaluator) : Prop :=
  ∀ t, t.WellFormed → (ev.answer t).Tame

namespace Dialogue.Orderly

variable {α : Type} {d : Dialogue α} {ev : Evaluator} {h : Heap}

theorem becomes_run (orderly : d.Orderly h) (answers : ev.Orderly) :
    h.Becomes (machineOf (d.run ev)).heap := by
  induction d generalizing h with
  | done result => exact orderly
  | ask t m restore next ih =>
    obtain ⟨wf, own, restores, answered⟩ := orderly
    have given := answers t wf m own.tidy
    unfold run
    cases answer : ev.answer t m with
    | ok a m' =>
      rw [answer] at given
      exact own.trans (given.trans (ih a m' (answered a m' given.tidy)))
    | error halt m' =>
      rw [answer] at given
      change h.Becomes (restore m').heap
      rw [restores]
      exact own.trans given

theorem asked (orderly : d.Orderly h) (answers : ev.Orderly) {t : Task} {m : Machine}
    (asks : d.Asks ev t m) : t.WellFormed ∧ h.Becomes m.heap := by
  induction asks generalizing h with
  | here t m restore next => exact ⟨orderly.1, orderly.2.1⟩
  | @later t _ m _ m' restore next a answer asks ih =>
    obtain ⟨wf, own, -, answered⟩ := orderly
    have given := answers t wf m own.tidy
    rw [answer] at given
    obtain ⟨wf', later⟩ := ih (answered a m' given.tidy)
    exact ⟨wf', own.trans (given.trans later)⟩

theorem becomes_out (orderly : d.Orderly h) (answers : ev.Orderly) {t : Task} {m : Machine}
    (asks : d.Asks ev t m) :
    (machineOf (ev.answer t m)).heap.Becomes (machineOf (d.run ev)).heap := by
  induction asks generalizing h with
  | here t m restore next =>
    obtain ⟨wf, own, restores, answered⟩ := orderly
    have given := answers t wf m own.tidy
    unfold run
    cases answer : ev.answer t m with
    | ok a m' =>
      rw [answer] at given
      exact (answered a m' given.tidy).becomes_run answers
    | error halt m' =>
      rw [answer] at given
      change m'.heap.Becomes (restore m').heap
      rw [restores]
      exact .refl given.tidy
  | @later t _ m _ m' restore next a answer asks ih =>
    obtain ⟨wf, own, -, answered⟩ := orderly
    have given := answers t wf m own.tidy
    rw [answer] at given
    unfold run
    rw [answer]
    exact ih (answered a m' given.tidy)

theorem becomes_next (orderly : d.Orderly h) (answers : ev.Orderly) {t₁ t₂ : Task}
    {m₁ m₂ m' : Machine} {halt : Halt} (asks : d.Asks ev t₂ m₂)
    (after : ¬ d.Asks (ev.cut t₁ m₁ halt m') t₂ m₂) :
    (machineOf (ev.answer t₁ m₁)).heap.Becomes m₂.heap := by
  induction asks generalizing h with
  | here t m restore next => exact absurd (.here t m restore next) after
  | @later t _ m _ m₃ restore next a answer asks ih =>
    obtain ⟨wf, own, -, answered⟩ := orderly
    have given := answers t wf m own.tidy
    rw [answer] at given
    have rest := answered a m₃ given.tidy
    -- The second part is asked for behind the first one, or the cut would not keep it away.
    by_cases same : t = t₁ ∧ m = m₁
    · obtain ⟨rfl, rfl⟩ := same
      rw [answer]
      exact (rest.asked answers asks).2
    · refine ih rest fun asks' => after (.later ?_ asks')
      rw [Evaluator.answer_cut_of_ne same, answer]

end Dialogue.Orderly

theorem Evaluator.orderly_withFuel (n : Nat) : (withFuel n).Orderly := by
  induction n with
  | zero =>
    intro t _ m tidy
    rw [answer_withFuel_zero]
    exact .refl tidy
  | succ n ih =>
    intro t wf m tidy
    have dialogic : Dialogic (withFuel n).rounds t.WellFormed fun ev => ev.rule t := .rule wf.own
    obtain ⟨d, same, orderly⟩ := dialogic
    have runs : (withFuel n).rule t m = (d m).run (withFuel n) := same (withFuel n) rfl m
    rw [answer_withFuel_succ, runs]
    exact (orderly wf m tidy).becomes_run ih

inductive Proceeds {α : Type} (x : Evaluator → Run α) (ev : Evaluator) (m : Machine) :
    Machine → Machine → Prop where
  | whole : Proceeds x ev m m (machineOf (x ev m))
  | into {t : Task} {m₁ : Machine} : ComesTo x ev m t m₁ → Proceeds x ev m m m₁
  | next {t₁ t₂ : Task} {m₁ m₂ : Machine} : ComesTo x ev m t₁ m₁ → ComesTo x ev m t₂ m₂ →
      ¬ ComesTo x (ev.cut t₁ m₁ .outOfFuel m₁) m t₂ m₂ →
      Proceeds x ev m (machineOf (ev.answer t₁ m₁)) m₂
  | out {t : Task} {m₁ : Machine} : ComesTo x ev m t m₁ →
      Proceeds x ev m (machineOf (ev.answer t m₁)) (machineOf (x ev m))

section

variable {α : Type} {P : Prop} {x : Evaluator → Run α} {ev : Evaluator} {m : Machine}

theorem ComesTo.orderly {t : Task} {m₁ : Machine} (comes : ComesTo x ev m t m₁)
    (dialogic : Dialogic ev.rounds P x) (holds : P) (answers : ev.Orderly) (tidy : m.heap.Tidy) :
    t.WellFormed ∧ m.heap.Becomes m₁.heap := by
  obtain ⟨d, same, orderly⟩ := dialogic
  have asks := (comesTo_iff_asks (fun ev' fuel => same ev' fuel m) t m₁).mp comes
  exact (orderly holds m tidy).asked answers asks

theorem Proceeds.becomes {m₁ m₂ : Machine} (proceeds : Proceeds x ev m m₁ m₂)
    (dialogic : Dialogic ev.rounds P x) (holds : P) (answers : ev.Orderly) (tidy : m.heap.Tidy) :
    m₁.heap.Becomes m₂.heap := by
  obtain ⟨d, same, orderly⟩ := dialogic
  have here := orderly holds m tidy
  have asked (ev' : Evaluator) (rounds : ev'.rounds = ev.rounds) (t : Task) (m₁ : Machine) :
      ComesTo x ev' m t m₁ ↔ (d m).Asks ev' t m₁ :=
    comesTo_iff_asks (fun ev'' fuel => same ev'' (fuel.trans rounds) m) t m₁
  cases proceeds with
  | whole =>
    rw [same ev rfl]
    exact here.becomes_run answers
  | into comes => exact (here.asked answers ((asked ev rfl _ _).mp comes)).2
  | next _ comes after =>
    have after' := mt (asked (ev.cut _ _ _ _) rfl _ _).mpr after
    exact here.becomes_next answers ((asked ev rfl _ _).mp comes) after'
  | out comes =>
    rw [same ev rfl]
    exact here.becomes_out answers ((asked ev rfl _ _).mp comes)

end

namespace Episode

def Passes (r : Episode) (m₁ m₂ : Machine) : Prop :=
  Proceeds (fun ev => runTopLevel ev r.program) (.withFuel r.fuel) r.machine m₁ m₂ ∨
    ∃ n t m around, r.Path (⟨n + 1, t, m⟩ :: around) ∧
      Proceeds (fun ev => ev.rule t) (.withFuel n) m m₁ m₂

variable {r : Episode}

theorem Path.orderly {a : Moment} {around : List Moment} (path : r.Path (a :: around))
    (wf : WellFormedStmts r.program) (tidy : r.machine.heap.Tidy) :
    a.task.WellFormed ∧ a.machine.heap.Tidy := by
  generalize same : a :: around = whole at path
  induction path generalizing a around with
  | first comes =>
    cases same
    obtain ⟨wf', becomes⟩ :=
      comes.2.orderly (.runTopLevel r.program) wf (Evaluator.orderly_withFuel r.fuel) tidy
    exact ⟨wf', becomes.tidy⟩
  | @part a b _ _ part ih =>
    cases same
    obtain ⟨wf', tidy'⟩ := ih rfl
    obtain ⟨wf'', becomes⟩ :=
      part.2.orderly (.rule wf'.own) wf' (Evaluator.orderly_withFuel a.fuel) tidy'
    exact ⟨wf'', becomes.tidy⟩

theorem Passes.becomes {m₁ m₂ : Machine} (passes : r.Passes m₁ m₂)
    (wf : WellFormedStmts r.program) (tidy : r.machine.heap.Tidy) : m₁.heap.Becomes m₂.heap := by
  rcases passes with proceeds | ⟨n, t, m, around, path, proceeds⟩
  · exact proceeds.becomes (.runTopLevel r.program) wf (Evaluator.orderly_withFuel r.fuel) tidy
  · obtain ⟨wf', tidy'⟩ := path.orderly wf tidy
    exact proceeds.becomes (.rule wf'.own) wf' (Evaluator.orderly_withFuel n) tidy'

end Episode

end Quill
