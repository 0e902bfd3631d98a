import Quill.Proofs.Evaluator.Truncation
import Quill.Proofs.Session.Splitting

set_option autoImplicit false

namespace Quill

/-- The machine with a sink that takes so many more bytes. -/
def Machine.accepting (m : Machine) (room : Nat) : Machine :=
  m.taking (m.sink.written.size + room)

namespace Session

def taking (s : Session) (limit : Nat) : Session :=
  { s with machine := s.machine.taking limit }

def accepting (s : Session) (room : Nat) : Session :=
  s.taking (s.machine.sink.written.size + room)

theorem discard_taking {α : Type} (s : Session) (limit : Nat) (rule : Parser α)
    (source : List UInt8) :
    (s.taking limit).discard rule source = (s.discard rule source).taking limit := by
  unfold discard taking
  dsimp only
  cases scanTokens source <;> rfl

end Session

theorem CutOff.output {α : Type} {room : Nat} {before : ByteArray}
    {full cut : EStateM.Result Halt Machine α} (cutOff : CutOff (before.size + room) before full cut) :
    ∃ output, (machineOf full).sink.written = before ++ output ∧
      (output.size ≤ room → cut = mapMachine (·.taking (before.size + room)) full) ∧
      (room < output.size → ∃ m, cut = .error (.error (.io .sinkFull)) m ∧
        m.sink.written = before ++ output.extract 0 room) := by
  obtain ⟨-, -, ⟨output, appends⟩, same, fails⟩ := cutOff
  have size : (machineOf full).sink.written.size = before.size + output.size := by
    rw [appends, ByteArray.size_append]
  refine ⟨output, appends, fun fits => same (by omega), fun exceeds => ?_⟩
  obtain ⟨m, result, written⟩ := fails (Nat.le_add_right _ _) (by omega)
  refine ⟨m, result, ?_⟩
  rw [written, appends, extract_append_of_ge (Nat.le_add_right _ _), Nat.add_sub_cancel_left]

theorem interpret_cutOff {m : Machine} (strict : m.heap.Hosts Deed.Strict)
    (endless : m.sink.limit = none) (flushes : m.sink.flushFails = false) (fuel : Nat)
    (program : List Stmt) (limit : Nat) :
    CutOff limit m.sink.written (interpret fuel program m)
      (interpret fuel program (m.taking limit)) := by
  rw [interpret_of_flush flushes, interpret_of_flush (m := m.taking limit) flushes]
  have closed := Run.Truncates.closed limit
  have host := Run.Truncates.hosting limit
  exact Evaluator.runTopLevel_closed closed
    (fun t own => Evaluator.withFuel_closed closed host fuel (own.within _)) program m endless strict

theorem outcomeOf_mapMachine {α : Type} (g : Machine → Machine)
    (result : EStateM.Result Halt Machine α) : outcomeOf (mapMachine g result) = outcomeOf result := by
  cases result with
  | ok a m => rfl
  | error halt m => cases halt <;> rfl

theorem Session.run_accepting {s : Session} (strict : s.machine.heap.Hosts Deed.Strict)
    (endless : s.machine.sink.limit = none)
    (flushes : s.machine.sink.flushFails = false) (fuel : Nat) (source : List UInt8) (room : Nat) :
    ∃ output,
      (s.run fuel source).2.machine.sink.written = s.machine.sink.written ++ output ∧
      (output.size ≤ room → (s.accepting room).run fuel source =
        (s.run fuel source).map id (·.taking (s.machine.sink.written.size + room))) ∧
      (room < output.size →
        ((s.accepting room).run fuel source).1 = .failed [.io .sinkFull] ∧
          ((s.accepting room).run fuel source).2.machine.sink.written =
            s.machine.sink.written ++ output.extract 0 room) := by
  cases prepares : prepareProgram s.nextId source with
  | error errors =>
    rw [run_rejected fuel prepares, run_rejected (s := s.accepting room) fuel prepares]
    refine ⟨.empty, ?_, fun _ => ?_, fun exceeds => absurd exceeds (Nat.not_lt_zero _)⟩
    · rw [discard_machine, ByteArray.append_empty]
    · exact congrArg (Prod.mk _) (s.discard_taking _ programRule source)
  | ok prepared =>
    rw [run_prepared fuel prepares, run_prepared (s := s.accepting room) fuel prepares,
      perform_eq, perform_eq]
    obtain ⟨output, written, same, fails⟩ := (interpret_cutOff
      (m := s.machine.withTable (s.tableFor prepared)) strict endless flushes fuel prepared.tree
      (s.machine.sink.written.size + room)).output
    -- How much room there is makes no difference to the table the run starts with.
    refine ⟨output, written, fun fits => ?_, fun exceeds => ?_⟩
    · have result : interpret fuel prepared.tree
          ((s.accepting room).machine.withTable ((s.accepting room).tableFor prepared)) = _ :=
        same fits
      rw [result, outcomeOf_mapMachine, machineOf_mapMachine]
      rfl
    · obtain ⟨m, cut, first⟩ := fails exceeds
      have result : interpret fuel prepared.tree
          ((s.accepting room).machine.withTable ((s.accepting room).tableFor prepared)) = _ := cut
      rw [result]
      exact ⟨rfl, first⟩

/-- On a sink without a limit a run prints some output. If a sink takes as much, everything is the
same on it; otherwise it takes the first bytes of the output, and the run ends because it is full,
whatever the run would have ended in, as long as functions of the host pass on the errors of what they
run. The same holds of a source that is run in a session. -/
theorem full_sink_truncates :
    (∀ (fuel : Nat) (program : List Stmt) (m : Machine) (room : Nat),
      m.heap.Hosts Deed.Strict → m.sink.limit = none → m.sink.flushFails = false →
      ∃ output,
        (machineOf (interpret fuel program m)).sink.written = m.sink.written ++ output ∧
        (output.size ≤ room → interpret fuel program (m.accepting room) =
          mapMachine (·.taking (m.sink.written.size + room)) (interpret fuel program m)) ∧
        (room < output.size →
          ∃ m', interpret fuel program (m.accepting room) = .error (.error (.io .sinkFull)) m' ∧
            m'.sink.written = m.sink.written ++ output.extract 0 room)) ∧
    ∀ (s : Session) (fuel : Nat) (source : List UInt8) (room : Nat),
      s.machine.heap.Hosts Deed.Strict → s.machine.sink.limit = none → s.machine.sink.flushFails = false →
      ∃ output,
        (s.run fuel source).2.machine.sink.written = s.machine.sink.written ++ output ∧
        (output.size ≤ room → (s.accepting room).run fuel source =
          (s.run fuel source).map id (·.taking (s.machine.sink.written.size + room))) ∧
        (room < output.size →
          ((s.accepting room).run fuel source).1 = .failed [.io .sinkFull] ∧
            ((s.accepting room).run fuel source).2.machine.sink.written =
              s.machine.sink.written ++ output.extract 0 room) :=
  ⟨fun fuel program _ _ strict endless flushes =>
      (interpret_cutOff strict endless flushes fuel program _).output,
    fun _ fuel source room strict endless flushes =>
      Session.run_accepting strict endless flushes fuel source room⟩

def printsThenFails : List UInt8 :=
  "print \"ab\"; print nil; nil();".toUTF8.data.toList

theorem full_sink_truncates_printsThenFails :
    ((Session.start .unlimited 0).run 5 printsThenFails).1 =
        .failed [.runtime .notCallable 1] ∧
      (((Session.start .unlimited 0).accepting 7).run 5 printsThenFails).1 =
        .failed [.runtime .notCallable 1] ∧
      (((Session.start .unlimited 0).accepting 5).run 5 printsThenFails).1 =
        .failed [.io .sinkFull] ∧
      (((Session.start .unlimited 0).accepting 5).run 5 printsThenFails).2.machine.sink.written =
        "ab\nni".toUTF8 := by
  have fails : ((Session.start .unlimited 0).run 5 printsThenFails).1 =
      .failed [.runtime .notCallable 1] := by cbv
  have prints : ((Session.start .unlimited 0).run 5 printsThenFails).2.machine.sink.written =
      "ab\nnil\n".toUTF8 := by cbv
  have whole {output : ByteArray}
      (written : ((Session.start .unlimited 0).run 5 printsThenFails).2.machine.sink.written =
        .empty ++ output) : output = "ab\nnil\n".toUTF8 := by
    rw [← prints, written, ByteArray.empty_append]
  have strict : (Session.start .unlimited 0).machine.heap.Hosts Deed.Strict :=
    (Heap.discreet_of_clock rfl).hosts Deed.Strict
  obtain ⟨_, written, same, -⟩ :=
    full_sink_truncates.2 (.start .unlimited 0) 5 printsThenFails 7 strict rfl rfl
  obtain ⟨_, written', -, cut⟩ :=
    full_sink_truncates.2 (.start .unlimited 0) 5 printsThenFails 5 strict rfl rfl
  cases whole written
  cases whole written'
  obtain ⟨ends, first⟩ := cut (by decide)
  refine ⟨fails, ?_, ends, first.trans (by cbv)⟩
  rw [same (by decide)]
  exact fails

end Quill
