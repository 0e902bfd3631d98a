import Quill.Proofs.Evaluator.Depth
import Quill.Proofs.Evaluator.Hosts
import Quill.Proofs.Session.Super
import Quill.Proofs.Session.Tiers

set_option autoImplicit false

namespace Quill

/-- At a moment within others the depth is the number of calls that are running, and within the
limit. It is the same when the moment is over, and one more while a call runs what it calls. -/
structure Moment.Counted (a : Moment) (around : List Moment) : Prop where
  depth : a.machine.depth = running (a :: around)
  bounded : a.machine.depth ≤ a.machine.maxDepth
  restored : (machineOf a.result).depth = a.machine.depth
  entered : ∀ callable values m, a.Enters callable values m →
    m.depth = running (a :: around) + 1 ∧ m.depth ≤ m.maxDepth

theorem Episode.Path.counted {r : Episode} (fresh : r.machine.depth = 0)
    (discreet : r.machine.heap.Discreet) {a : Moment} {around : List Moment}
    (path : r.Path (a :: around)) : a.Counted around := by
  obtain ⟨depth, bounded⟩ := path.depth fresh discreet
  obtain ⟨within, holds⟩ := path.within Realm.whole_quiet trivial (Realm.whole_holds discreet)
  have lawful := (Evaluator.lawful_withFuel .whole a.fuel).answers a.task within
  have restored := lawful.restored Realm.whole_quiet a.machine holds
  refine ⟨depth, bounded, restored.depth, fun callable values m enters => ?_⟩
  · obtain ⟨shallow, deeper, limit⟩ := enters.depth (holds.discreet Realm.whole_quiet)
    exact ⟨by rw [deeper, depth], by omega⟩

theorem Run.Agree.same_of_not_overflows {α : Type} {level limit limit' : Nat}
    {r r' : EStateM.Result Halt Machine α} (agree : Run.Agree level limit limit' r r')
    (keeps : ¬ Overflows r) : r' = gauged level limit' r := by
  rcases agree.same with same | ⟨-, overflow⟩
  · exact same
  · exact absurd overflow keeps

theorem interpret_gauged {fuel level limit : Nat} {program : List Stmt} {m m' : Machine}
    (same : runTopLevel (.withFuel fuel) program m' =
      gauged level limit (runTopLevel (.withFuel fuel) program m)) :
    interpret fuel program m' = gauged level limit (interpret fuel program m) := by
  unfold interpret
  rw [same]
  cases runTopLevel (.withFuel fuel) program m with
  | ok _ m₁ =>
    change (if m₁.sink.flushFails then _ else _) =
      gauged level limit (if m₁.sink.flushFails then _ else _)
    rw [apply_ite (gauged level limit)]
    rfl
  | error halt m₁ => cases halt <;> rfl

def Outcome.Overflowed {α : Type} (outcome : Outcome α) : Prop :=
  ∃ line, outcome = .failed [.runtime .stackOverflow line]

namespace Session

/-- The statements of a program nest calls too deep, whatever the flush after them reports. -/
def CallsTooDeep (s : Session) (fuel : Nat) (source : List UInt8) : Prop :=
  ∃ prepared, prepareProgram s.nextId source = .ok prepared ∧
    Overflows (s.episode fuel prepared).result

variable {s : Session} {fuel : Nat} {source : List UInt8}

theorem callsTooDeep_iff (flushes : s.machine.sink.flushFails = false) :
    s.CallsTooDeep fuel source ↔ (s.run fuel source).1.Overflowed := by
  cases prepares : prepareProgram s.nextId source with
  | error errors =>
    have rejected : (s.run fuel source).1 = .failed errors := by rw [run_rejected fuel prepares]
    refine ⟨fun ⟨prepared, accepted, _⟩ => ?_, fun ⟨line, overflow⟩ => ?_⟩
    · rw [prepares] at accepted
      cases accepted
    · rw [rejected] at overflow
      cases overflow
      cases ((prepareProgram_error prepares).alike List.mem_cons_self).1
  | ok prepared =>
    -- No step makes a working sink fail to flush, so the error of the run is the one reported.
    have flush : (machineOf (s.episode fuel prepared).result).sink.flushFails = false :=
      (runTopLevel_flushFails fuel prepared.tree _).trans flushes
    constructor
    · rintro ⟨prepared', accepted, line, m, overflow⟩
      rw [prepares] at accepted
      cases accepted
      rw [overflow] at flush
      have flush' : m.sink.flushFails = false := flush
      rw [run_eq fuel prepares, overflow]
      exact ⟨line, by simp only [flush', Bool.false_eq_true, if_false]⟩
    · rintro ⟨line, overflow⟩
      refine ⟨prepared, prepares, line, ?_⟩
      rw [run_eq fuel prepares] at overflow
      cases result : (s.episode fuel prepared).result with
      | ok _ m =>
        rw [result] at overflow flush
        have flush' : m.sink.flushFails = false := flush
        simp [flush'] at overflow
      | error halt m =>
        rw [result] at overflow flush
        have flush' : m.sink.flushFails = false := flush
        cases halt with
        | outOfFuel => cases overflow
        | error e =>
          simp only [flush', Bool.false_eq_true, if_false] at overflow
          cases overflow
          exact ⟨m, rfl⟩

theorem perform_withMaxDepth {α β : Type} {d d' : Nat} {prepared : Prepared α}
    {action : α → Run β}
    (depth : (machineOf (action prepared.tree
      ((s.withMaxDepth d).machine.withTable (s.tableFor prepared)))).depth = s.machine.depth)
    (same : action prepared.tree ((s.withMaxDepth d').machine.withTable (s.tableFor prepared)) =
      gauged s.machine.depth d' (action prepared.tree
        ((s.withMaxDepth d).machine.withTable (s.tableFor prepared)))) :
    (s.withMaxDepth d').perform prepared action =
      ((s.withMaxDepth d).perform prepared action).map id (·.withMaxDepth d') := by
  have table (limit : Nat) : (s.withMaxDepth limit).tableFor prepared = s.tableFor prepared := rfl
  rw [perform_eq, perform_eq, table, table, same]
  cases result : action prepared.tree
      ((s.withMaxDepth d).machine.withTable (s.tableFor prepared)) with
  | ok a m =>
    rw [result] at depth
    rw [← (show m.depth = s.machine.depth from depth)]
    rfl
  | error halt m =>
    rw [result] at depth
    rw [← (show m.depth = s.machine.depth from depth)]
    cases halt <;> rfl

theorem discard_withMaxDepth {α : Type} (s : Session) (d : Nat) (rule : Parser α)
    (source : List UInt8) :
    (s.withMaxDepth d).discard rule source = (s.discard rule source).withMaxDepth d := by
  unfold discard withMaxDepth
  dsimp only
  cases scanTokens source <;> rfl

theorem run_withMaxDepth (discreet : s.machine.heap.Discreet) {d d' : Nat} (le : d ≤ d')
    (keeps : ¬ (s.withMaxDepth d).CallsTooDeep fuel source) :
    (s.withMaxDepth d').run fuel source =
      ((s.withMaxDepth d).run fuel source).map id (·.withMaxDepth d') := by
  cases prepares : prepareProgram s.nextId source with
  | error errors =>
    rw [run_rejected fuel (s := s.withMaxDepth d) prepares,
      run_rejected fuel (s := s.withMaxDepth d') prepares, discard_withMaxDepth,
      discard_withMaxDepth]
    rfl
  | ok prepared =>
    rw [run_prepared fuel (s := s.withMaxDepth d) prepares,
      run_prepared fuel (s := s.withMaxDepth d') prepares]
    have follows := Evaluator.runTopLevel_follows
      (fun st => Evaluator.withFuel_follows le fuel (t := .stmt st) trivial s.machine.depth)
      prepared.tree ((s.withMaxDepth d).machine.withTable (s.tableFor prepared)) rfl rfl discreet
    have same := follows.same_of_not_overflows fun overflow => keeps ⟨prepared, prepares, overflow⟩
    refine perform_withMaxDepth ?_ (interpret_gauged same)
    rw [machineOf_interpret]
    exact follows.depth

theorem evaluate_withMaxDepth (discreet : s.machine.heap.Discreet) {d d' : Nat} (le : d ≤ d')
    (keeps : ¬ ((s.withMaxDepth d).evaluate fuel source).1.Overflowed) :
    (s.withMaxDepth d').evaluate fuel source =
      ((s.withMaxDepth d).evaluate fuel source).map id (·.withMaxDepth d') := by
  cases prepares : prepareExpression s.nextId source with
  | error errors =>
    rw [evaluate_rejected fuel (s := s.withMaxDepth d) prepares,
      evaluate_rejected fuel (s := s.withMaxDepth d') prepares, discard_withMaxDepth,
      discard_withMaxDepth]
    rfl
  | ok prepared =>
    rw [evaluate_prepared fuel (s := s.withMaxDepth d) prepares] at keeps ⊢
    rw [evaluate_prepared fuel (s := s.withMaxDepth d') prepares]
    have follows := Evaluator.withFuel_follows le fuel (t := .expr prepared.tree) trivial
      s.machine.depth ((s.withMaxDepth d).machine.withTable (s.tableFor prepared)) rfl rfl discreet
    refine perform_withMaxDepth follows.depth (follows.same_of_not_overflows ?_)
    rintro ⟨line, m, overflow⟩
    refine keeps ⟨line, ?_⟩
    rw [perform_eq]
    exact congrArg outcomeOf overflow

end Session

/-- The limit on nested calls is a cut-off where functions of the host leave the machine alone, as the
clock does. Whatever a run on a fresh machine comes to, the machine counts the calls that are running,
and never past the limit. If flushing works, a run that does not end in an overflow under a limit is
the same under any higher limit, with the same result, the same output and the same machine left
behind. The same holds of evaluating, where nothing is flushed, and of any run in which it is not an
overflow that the flush has replaced. -/
theorem depth_limit_cuts_off (s : Session) (fuel : Nat) (source : List UInt8) (d d' : Nat)
    (discreet : s.machine.heap.Discreet) (le : d ≤ d') :
    (∀ (r : Episode) (a : Moment) (around : List Moment), r.machine.heap.Discreet →
      r.machine.depth = 0 → r.Path (a :: around) → a.Counted around) ∧
    (s.machine.sink.flushFails = false → ¬ ((s.withMaxDepth d).run fuel source).1.Overflowed →
      (s.withMaxDepth d').run fuel source =
        ((s.withMaxDepth d).run fuel source).map id (·.withMaxDepth d')) ∧
    (¬ ((s.withMaxDepth d).evaluate fuel source).1.Overflowed →
      (s.withMaxDepth d').evaluate fuel source =
        ((s.withMaxDepth d).evaluate fuel source).map id (·.withMaxDepth d')) ∧
    (¬ (s.withMaxDepth d).CallsTooDeep fuel source →
      (s.withMaxDepth d').run fuel source =
        ((s.withMaxDepth d).run fuel source).map id (·.withMaxDepth d')) := by
  refine ⟨fun r a around discreet fresh path => path.counted fresh discreet,
    fun flushes keeps => ?_, ?_, ?_⟩
  · refine s.run_withMaxDepth discreet le fun deep => keeps ?_
    exact (s.withMaxDepth d).callsTooDeep_iff flushes |>.mp deep
  · exact s.evaluate_withMaxDepth discreet le
  · exact s.run_withMaxDepth discreet le

theorem depth_limit_cuts_off_inheriting :
    Inheriting.inside.depth = 1 ∧ Inheriting.inside.depth ≤ Inheriting.inside.maxDepth ∧
      ((Session.start .unlimited 0).withMaxDepth 256).run 4 Inheriting.source =
        (((Session.start .unlimited 0).withMaxDepth 1).run 4 Inheriting.source).map id
          (·.withMaxDepth 256) := by
  have clock : (Session.start .unlimited 0).machine.heap.natives = #[.clock] := rfl
  have discreet := Heap.discreet_of_clock clock
  obtain ⟨counts, cutsOff, -⟩ :=
    depth_limit_cuts_off _ 4 Inheriting.source 1 256 discreet (by decide)
  have counted := counts _ _ _ discreet rfl Inheriting.path
  have done : (((Session.start .unlimited 0).withMaxDepth 1).run 4 Inheriting.source).1 =
      .done () := by cbv
  refine ⟨counted.depth, counted.bounded, cutsOff rfl ?_⟩
  rintro ⟨line, overflow⟩
  rw [done] at overflow
  cases overflow

def callPrinting : List UInt8 :=
  "fun f() \x7b print nil; \x7d f();".toUTF8.data.toList

example :
    let s := Session.start { Sink.unlimited with flushFails := true } 0
    ((s.withMaxDepth 0).run 5 callPrinting).1 = .failed [.io .flushFailed] ∧
      ((s.withMaxDepth 0).run 5 callPrinting).2.machine.sink.written.size = 0 ∧
      ((s.withMaxDepth 1).run 5 callPrinting).2.machine.sink.written.size = 4 :=
  ⟨by cbv, by cbv, by cbv⟩

end Quill
