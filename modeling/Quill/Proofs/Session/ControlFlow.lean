import Quill.Proofs.Evaluator.Relay
import Quill.Proofs.Evaluator.Signals
import Quill.Proofs.Grammar.Program
import Quill.Proofs.Session.Registers

set_option autoImplicit false

namespace Quill

namespace Moment

/-- A statement ends in some way, on a machine that is given but for its scope. -/
def Ends (a : Moment) (flow : Flow) (m' : Machine) : Prop :=
  ∃ s, a.task = .stmt s ∧
    (Evaluator.withFuel a.fuel).exec s a.machine = .ok flow { m' with scope := a.machine.scope }

/-- What is evaluated or called at a moment comes to this. -/
def value? (a : Moment) : Option (EStateM.Result Halt Machine Value) :=
  match a.task with
  | .expr e => some ((Evaluator.withFuel a.fuel).eval e a.machine)
  | .call callee arguments line =>
    some ((Evaluator.withFuel a.fuel).invoke callee arguments line a.machine)
  | .stmt _ | .act .. => none

def IsLoop (a : Moment) : Prop :=
  ∃ condition body, a.task = .stmt (.loop condition body)

variable {a b : Moment} {flow : Flow} {m' : Machine}

theorem Part.relays (part : a.Part b) (ends : a.Ends flow m') (signal : flow ≠ .normal) {s : Stmt}
    (task : b.task = .stmt s) (discreet : b.machine.heap.Discreet) : b.Ends (s.relay flow) m' := by
  obtain ⟨n, t, m⟩ := a
  obtain ⟨n', t', m₁⟩ := b
  obtain ⟨rfl, comes⟩ := part
  obtain ⟨s', rfl, result⟩ := ends
  cases task
  have lawful := Evaluator.lawful_withFuel .whole n
  exact ⟨s, rfl, Evaluator.execRule_relays result signal lawful discreet comes⟩

end Moment

theorem Evaluator.Owns.fits {s : Stmt} {h : Heap} {closure : Closure}
    (owns : Owns .passed s h closure) {n : Nat} {m m' : Machine} {flow : Flow}
    (result : (withFuel n).exec s m = .ok flow m') :
    flow ≠ .broke ∧ ∀ v, flow = .returned v → closure.isInitializer = true → v = .nil := by
  obtain ⟨ctx, passes, outside, kind⟩ := owns.callee
  have fits := obeys_withFuel n ctx s (passes.mem owns.body) m flow m' result
  constructor
  · rintro rfl
    change 0 < ctx.loopDepth at fits
    rw [outside] at fits
    exact Nat.lt_irrefl 0 fits
  · rintro v rfl initializer
    exact fits.2 (kind initializer)

namespace Episode.Path

variable {r : Episode} {a b : Moment} {around : List Moment} {flow : Flow} {m' : Machine}

section Passed

variable (passes : Piece.Passes .top (.stmts r.program))
  (here : Realm.passed.Holds r.machine.heap)

include passes

theorem first_normal (path : r.Path [a]) (ends : a.Ends flow m') : flow = .normal := by
  cases path with
  | first comes =>
    obtain ⟨n, t, m⟩ := a
    obtain ⟨rfl, comes⟩ := comes
    obtain ⟨s, rfl, result⟩ := ends
    have fits := Evaluator.obeys_withFuel r.fuel .top s
      (passes.mem (Evaluator.mem_of_runTopLevel comes)) m flow _ result
    -- At the top there is neither a loop nor a function to leave.
    cases flow with
    | normal => rfl
    | broke => exact absurd fits (Nat.lt_irrefl 0)
    | returned v => rcases fits.1 with kind | kind | kind <;> cases kind

include here

theorem outward (path : r.Path (a :: around)) (ends : a.Ends flow m') (signal : flow ≠ .normal) :
    ∃ (inner : List Moment) (last : Moment) (outer : List Moment), around = inner ++ last :: outer ∧
      (∀ b ∈ inner, b.Ends flow m' ∧ (flow = .broke → ¬ b.IsLoop)) ∧
      ((flow = .broke ∧ last.IsLoop ∧ last.Ends .normal m') ∨
        (last.value?.isSome ∧ r.Path (inner.getLast?.getD a :: last :: outer))) := by
  -- The signal goes from one moment to the next one around it, until something takes it.
  generalize same : a :: around = whole at path
  induction path generalizing a around with
  | first comes =>
    cases same
    exact absurd (first_normal passes (.first comes) ends) signal
  | @part a b outer path part ih =>
    cases same
    have code : Realm.passed.Code (.stmts r.program) := ⟨.top, passes⟩
    obtain ⟨within, holds⟩ := path.within Realm.passed_quiet code here
    have none {P : Moment → Prop} : ∀ b ∈ ([] : List Moment), P b := fun _ mem => by cases mem
    cases task : b.task with
    | act deed line =>
      rw [task] at within
      exact within.elim
    | expr _ | call _ _ _ =>
      have call : b.value?.isSome := by
        unfold Moment.value?
        rw [task]
        rfl
      exact ⟨[], b, outer, rfl, none, .inr ⟨call, .part path part⟩⟩
    | stmt s =>
      have relayed := part.relays ends signal task (holds.discreet Realm.passed_quiet)
      by_cases absorbs : flow = .broke ∧ b.IsLoop
      · obtain ⟨rfl, condition, body, loop⟩ := absorbs
        rw [task] at loop
        cases loop
        exact ⟨[], b, outer, rfl, none, .inl ⟨rfl, ⟨condition, body, task⟩, relayed⟩⟩
      · have same : s.relay flow = flow := by
          cases s with
          | loop condition body =>
            cases flow with
            | broke => exact absurd ⟨rfl, condition, body, task⟩ absorbs
            | normal | returned _ => rfl
          | _ => rfl
        rw [same] at relayed
        obtain ⟨inner, last, rest, rfl, each, ended⟩ := ih relayed rfl
        refine ⟨b :: inner, last, rest, rfl, fun b' mem => ?_, ?_⟩
        · rcases List.mem_cons.mp mem with rfl | mem
          · exact ⟨relayed, fun broke loop => absorbs ⟨broke, loop⟩⟩
          · exact each b' mem
        · rw [List.getLast?_cons]
          exact ended

end Passed

end Episode.Path

theorem Session.Used.passed {s : Session} (used : s.Used Native.Discreet) :
    Realm.passed.Holds s.machine.heap :=
  used.holds Native.clock_discreet (fun _ discreet => discreet)
    (fun prepares => ⟨.top, .start, (prepareProgram_checked prepares).clean⟩)
    fun prepares => ⟨.top, .start, (prepareExpression_checked prepares).clean⟩

end Quill
