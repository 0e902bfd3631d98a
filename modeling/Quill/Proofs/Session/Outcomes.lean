import Mathlib
import Quill.Proofs.Session.History

set_option autoImplicit false

namespace Quill

/-- A result, or an error that a program may end with. -/
def Outcome.Regular {α : Type} : Outcome α → Prop
  | .done _ | .failed [.runtime ..] | .failed [.io _] => True
  | _ => False

theorem Machine.Misses.slotOf {m : Machine} {p : Pending} {id : RefId} {name : Token}
    (misses : m.Misses p id name) :
    ∃ d, Run.slotOf m id name = .error (.internal (.notBound name.lexeme d name.line)) := by
  obtain ⟨d, s, distance, reached, missing, -⟩ := misses
  refine ⟨d, ?_⟩
  have none : m.heap.value? s name.lexeme = none := by
    cases found : m.heap.value? s name.lexeme with
    | none => rfl
    | some v => exact absurd ⟨v, found⟩ missing
  unfold Run.slotOf
  rw [distance]
  simp only [Heap.slotAt, reached, Heap.slotIn?_eq, none]
  rfl

theorem Task.Touches.fails {n : Nat} {t : Task} {m m' : Machine} {p : Pending} {id : RefId}
    {name : Token} (touches : t.Touches (.withFuel n) m id name m') (misses : m'.Misses p id name) :
    ∃ x d line m'', (Evaluator.withFuel (n + 1)).answer t m =
      .error (.error (.internal (.notBound x d line))) m'' := by
  obtain ⟨d, failed⟩ := misses.slotOf
  refine ⟨name.lexeme, d, name.line, m', ?_⟩
  rw [Evaluator.answer_withFuel_succ]
  rcases touches with ⟨rfl, rfl⟩ | ⟨e, v, rfl, result⟩
  · change Run.readRef id name m' = _
    unfold Run.readRef
    rw [failed]
    rfl
  · have written : Run.writeRef id name v m' =
        .error (.error (.internal (.notBound name.lexeme d name.line))) m' := by
      unfold Run.writeRef
      rw [failed]
    exact (Run.bind_of_ok result).trans (Run.bind_of_error written)

theorem Episode.Premature.fails {r : Episode} {past : Pending} (premature : r.Premature past) :
    ∃ x d line m, r.result = .error (.error (.internal (.notBound x d line))) m := by
  obtain ⟨n, t, m, around, id, name, m', path, touches, misses⟩ := premature
  obtain ⟨x, d, line, m'', fails⟩ := touches.fails misses
  obtain ⟨m₁, failed⟩ := path.fails fails
  exact ⟨x, d, line, m₁, failed⟩

/-- Whatever was run before, a run that ends does so with a result or an error that a program may
end with if and only if it comes to no name prematurely, or flushing fails and hides it. There is
no other fault it can end with. -/
theorem Session.Reached.run_regular_iff {s : Session} {earlier : List Episode}
    (reached : s.Reached earlier) {source : List UInt8} {prepared : Prepared (List Stmt)}
    (prepares : prepareProgram s.nextId source = .ok prepared) {fuel : Nat}
    (ended : (s.run fuel source).1 ≠ .unfinished) :
    ((s.run fuel source).1.Regular ↔
      s.machine.sink.flushFails = true ∨
        ¬ (s.episode fuel prepared).Premature (CutOffIn earlier)) ∧
    (¬ (s.run fuel source).1.Regular →
      ∃ x d line, (s.run fuel source).1 = .failed [.internal (.notBound x d line)]) := by
  have steady := reached.steady
  have accepted := prepareProgram_accepted prepares
  obtain ⟨w, here⟩ := steady.start accepted fuel
  have kept := (steady.covered accepted fuel).result here
  have flushes {m : Machine} {w' : World} (steps : Steps w w' (s.episode fuel prepared).machine m) :
      m.sink.flushFails = s.machine.sink.flushFails := steps.flush
  -- A run that comes to a name prematurely has one way to end only.
  have punctual (other : ∀ x d line m, (s.episode fuel prepared).result ≠
      .error (.error (.internal (.notBound x d line))) m) :
      ¬ (s.episode fuel prepared).Premature (CutOffIn earlier) := by
    intro premature
    obtain ⟨x, d, line, m, failed⟩ := premature.fails
    exact other x d line m failed
  have fine {o : Outcome Unit} (regular : o.Regular) (reason : s.machine.sink.flushFails = true ∨
      ¬ (s.episode fuel prepared).Premature (CutOffIn earlier)) :
      (o.Regular ↔ s.machine.sink.flushFails = true ∨
        ¬ (s.episode fuel prepared).Premature (CutOffIn earlier)) ∧
      (¬ o.Regular → ∃ x d line, o = .failed [.internal (.notBound x d line)]) :=
    ⟨⟨fun _ => reason, fun _ => regular⟩, fun absurd => (absurd regular).elim⟩
  rw [run_eq fuel prepares] at ended ⊢
  cases result : (s.episode fuel prepared).result with
  | ok a m =>
    rw [result] at punctual
    simp only
    cases m.sink.flushFails with
    | false => exact fine trivial (.inr (punctual (by simp)))
    | true => exact fine trivial (.inr (punctual (by simp)))
  | error halt m =>
    rw [result] at punctual
    obtain ⟨w', steps, -, allowed⟩ := kept.of_result_error result
    cases halt with
    | outOfFuel =>
      rw [result] at ended
      exact absurd rfl ended
    | error e =>
      simp only
      rw [flushes steps]
      cases flush : s.machine.sink.flushFails with
      | true =>
        rw [flush] at fine
        exact fine trivial (.inl rfl)
      | false =>
        rw [flush] at fine
        cases e with
        | runtime fault line => exact fine trivial (.inr (punctual (by simp)))
        | io fault => exact fine trivial (.inr (punctual (by simp)))
        | internal fault =>
          cases fault with
          | notBound x d line =>
            refine ⟨⟨False.elim, fun h => ?_⟩, fun _ => ⟨x, d, line, rfl⟩⟩
            rcases h with flushed | regular
            · cases flushed
            · exact regular allowed
          | _ => exact allowed.elim
        | _ => exact allowed.elim

def assignedInitializer : List UInt8 :=
  "{ var c = c = nil; }".toUTF8.data.toList

theorem run_regular_iff_assignedInitializer :
    ∃ prepared, prepareProgram 0 assignedInitializer = .ok prepared ∧
      ((Session.start .unlimited 0).run 5 assignedInitializer).1 =
        .failed [.internal (.notBound "c" 0 1)] ∧
      ((Session.start .unlimited 0).episode 5 prepared).Premature (CutOffIn []) := by
  have failed : ((Session.start .unlimited 0).run 5 assignedInitializer).1 =
      .failed [.internal (.notBound "c" 0 1)] := by cbv
  have ended : ((Session.start .unlimited 0).run 5 assignedInitializer).1 ≠ .unfinished := by
    rw [failed]
    simp
  have reached : (Session.start .unlimited 0).Reached [] := .start .unlimited 0 256
  have accepted : (prepareProgram 0 assignedInitializer).toBool = true := by cbv
  cases prepares : prepareProgram 0 assignedInitializer with
  | error errors =>
    rw [prepares] at accepted
    cases accepted
  | ok prepared =>
    have iff := (reached.run_regular_iff prepares ended).1
    rw [failed] at iff
    refine ⟨prepared, rfl, failed, ?_⟩
    by_contra regular
    exact iff.mpr (.inr regular)

end Quill
