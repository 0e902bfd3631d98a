import Mathlib
import Quill.Proofs.Evaluator.Hosts
import Quill.Proofs.Resolution.Locality
import Quill.Proofs.Session.Tables

set_option autoImplicit false

namespace Quill

theorem stmtReferences_append (p q : List Stmt) :
    stmtReferences (p ++ q) = stmtReferences p ++ stmtReferences q := by
  induction p with
  | nil => rfl
  | cons s p ih =>
    change s.references ++ stmtReferences (p ++ q) = s.references ++ stmtReferences p ++ _
    rw [ih, List.append_assoc]

theorem resolveStmts_append (ctx : Context) (p q : List Stmt) (r : Resolution) :
    resolveStmts ctx (p ++ q) r = resolveStmts ctx q (resolveStmts ctx p r) := by
  induction p generalizing r with
  | nil => rfl
  | cons s p ih => exact ih (s.resolve ctx r)

theorem resolveStmts_top_append (p q : List Stmt) :
    Resolution.Shifted (resolveStmts .top p .start).distances (resolveStmts .top p .start).errors
      (resolveStmts .top q .start) (resolveStmts .top (p ++ q) .start) := by
  have closed : (resolveStmts .top p .start).scopes = [] :=
    List.length_eq_zero_iff.mp ((resolveStmts_local .top p).height .start)
  rw [resolveStmts_append]
  refine (resolveStmts_local .top q).shifted ⟨closed, rfl, fun id => ?_⟩
  change _ = (none : Option Nat).or _
  rw [Option.none_or]

def errorsIn : Except (List Error) Distances → List Error
  | .ok _ => []
  | .error errors => errors

theorem resolveProgram_eq_ok {program : List Stmt} {table : Distances} :
    resolveProgram program = .ok table ↔ errorsIn (resolveProgram program) = [] ∧
      (resolveStmts .top program .start).distances = table := by
  unfold resolveProgram Resolution.result
  split
  next => exact ⟨fun h => ⟨rfl, Except.ok.inj h⟩, fun h => congrArg _ h.2⟩
  next errors some =>
    refine ⟨fun h => ?_, fun h => ?_⟩
    · cases h
    · exact (some (List.reverse_eq_nil_iff.mp h.1)).elim

theorem errorsIn_resolveProgram (program : List Stmt) :
    errorsIn (resolveProgram program) = (resolveStmts .top program .start).errors.reverse := by
  unfold resolveProgram Resolution.result
  split
  next clean =>
    rw [clean]
    rfl
  next => rfl

theorem errorsIn_append (p q : List Stmt) :
    errorsIn (resolveProgram (p ++ q)) =
      errorsIn (resolveProgram p) ++ errorsIn (resolveProgram q) := by
  rw [errorsIn_resolveProgram, errorsIn_resolveProgram, errorsIn_resolveProgram,
    (resolveStmts_top_append p q).errors, List.reverse_append]

theorem resolveProgram_append_ok {p q : List Stmt} {t : Distances} :
    resolveProgram (p ++ q) = .ok t ↔ ∃ tp tq, resolveProgram p = .ok tp ∧
      resolveProgram q = .ok tq ∧ (resolveStmts .top (p ++ q) .start).distances = t := by
  constructor
  · intro whole
    obtain ⟨clean, table⟩ := resolveProgram_eq_ok.mp whole
    rw [errorsIn_append] at clean
    obtain ⟨first, second⟩ := List.append_eq_nil_iff.mp clean
    exact ⟨_, _, resolveProgram_eq_ok.mpr ⟨first, rfl⟩, resolveProgram_eq_ok.mpr ⟨second, rfl⟩, table⟩
  · rintro ⟨tp, tq, first, second, table⟩
    refine resolveProgram_eq_ok.mpr ⟨?_, table⟩
    rw [errorsIn_append, first, second]
    rfl

theorem getElem?_append {p q : List Stmt} {tp tq t : Distances} (first : resolveProgram p = .ok tp)
    (second : resolveProgram q = .ok tq) (whole : resolveProgram (p ++ q) = .ok t) (id : RefId) :
    t[id]? = (tp.merge tq)[id]? := by
  rw [← (resolveProgram_eq_ok.mp whole).2, (resolveStmts_top_append p q).distances,
    (resolveProgram_eq_ok.mp first).2, (resolveProgram_eq_ok.mp second).2, Distances.getElem?_merge]

theorem runTopLevel_append (ev : Evaluator) (p q : List Stmt) :
    runTopLevel ev (p ++ q) = runTopLevel ev p >>= fun _ => runTopLevel ev q := by
  induction p with
  | nil => rfl
  | cons s p ih =>
    change (ev.exec s >>= _) = (ev.exec s >>= _) >>= _
    rw [bind_assoc]
    refine congrArg (ev.exec s >>= ·) (funext fun flow => ?_)
    cases flow with
    | normal => exact ih
    | returned _ | broke => rfl

theorem interpret_of_flush {fuel : Nat} {program : List Stmt} {m : Machine}
    (flushes : m.sink.flushFails = false) :
    interpret fuel program m = runTopLevel (.withFuel fuel) program m := by
  have flush := (runTopLevel_flushFails fuel program m).trans flushes
  unfold interpret
  cases result : runTopLevel (.withFuel fuel) program m with
  | ok _ m' =>
    rw [result] at flush
    change m'.sink.flushFails = false at flush
    simp only [flush, Bool.false_eq_true, if_false]
  | error halt m' =>
    rw [result] at flush
    change m'.sink.flushFails = false at flush
    cases halt with
    | outOfFuel => rfl
    | error e => simp only [flush, Bool.false_eq_true, if_false]

def runHalves (fuel : Nat) (p q : List Stmt) (tp tq : Distances) : Run Unit := fun m =>
  match runTopLevel (.withFuel fuel) p (m.withTable (m.distances.merge tp)) with
  | .ok _ m' => runTopLevel (.withFuel fuel) q (m'.withTable (m'.distances.merge tq))
  | .error halt m' => .error halt m'

theorem Realm.among_all_holds {h : Heap} (blind : h.Hosts Deed.Blind) :
    (Realm.among fun _ => True).Holds h :=
  among_holds.mpr ⟨blind, fun _ _ => trivial⟩

theorem runHalves_distances {fuel : Nat} {p q : List Stmt} {tp tq : Distances} {m m' : Machine}
    (blind : m.heap.Hosts Deed.Blind) (done : runHalves fuel p q tp tq m = .ok () m') :
    m'.distances = (m.distances.merge tp).merge tq := by
  let R := Realm.among fun _ => True
  have lawful (program : List Stmt) :=
    (Evaluator.lawful_withFuel R fuel).runTopLevel
      (show R.Code (.stmts program) from fun _ _ => trivial)
  have here : R.Holds (m.withTable (m.distances.merge tp)).heap := Realm.among_all_holds blind
  have early := ((lawful p).returns _ here).distances (Realm.among_blind _)
  have later := (lawful p).holds _ here
  unfold runHalves at done
  cases result : runTopLevel (.withFuel fuel) p (m.withTable (m.distances.merge tp)) with
  | error halt m₁ =>
    rw [result] at done
    cases done
  | ok _ m₁ =>
    rw [result] at done early later
    have late := ((lawful q).returns (m₁.withTable (m₁.distances.merge tq)) later).distances
      (Realm.among_blind _)
    have table : m₁.distances = m.distances.merge tp := early
    dsimp only at done
    rw [done] at late
    rw [← table]
    exact late

section Halves

variable {p q : List Stmt} {tp tq t : Distances} {m : Machine}
  (first : resolveProgram p = .ok tp) (second : resolveProgram q = .ok tq)
  (whole : resolveProgram (p ++ q) = .ok t)

include first second whole

theorem getElem?_merge_append (old : Distances) (id : RefId) :
    (old.merge t)[id]? = ((old.merge tp).merge tq)[id]? := by
  rw [Distances.getElem?_merge, getElem?_append first second whole, Distances.getElem?_merge,
    Distances.getElem?_merge, Distances.getElem?_merge, Option.or_assoc]

theorem agree_of_fresh (fresh : ∀ id ∈ (Piece.stmts (p ++ q)).ids, ¬ m.heap.Mentions id)
    (distinct : (Piece.stmts (p ++ q)).ids.Nodup) :
    (Realm.among fun id => m.heap.Mentions id ∨ id ∈ (Piece.stmts p).ids).Agree
      (m.distances.merge tp) (m.distances.merge t) := by
  have ids : (Piece.stmts (p ++ q)).ids = (Piece.stmts p).ids ++ (Piece.stmts q).ids := by
    change (stmtReferences (p ++ q)).map _ = (stmtReferences p).map _ ++ (stmtReferences q).map _
    rw [stmtReferences_append, List.map_append]
  intro id ref
  -- Whether the code is old or of the first half, the second half records nothing about it.
  have later : id ∉ (Piece.stmts q).ids := by
    intro mem
    rcases ref with mentioned | early
    · exact fresh id (ids ▸ List.mem_append_right _ mem) mentioned
    · rw [ids] at distinct
      exact (List.nodup_append.mp distinct).2.2 id early id mem rfl
  rw [getElem?_merge_append first second whole, Distances.getElem?_merge,
    (Piece.stmts _).distances_outside second later, Option.none_or]

theorem runTopLevel_halves (blind : m.heap.Hosts Deed.Blind) (fuel : Nat)
    (fresh : ∀ id ∈ (Piece.stmts (p ++ q)).ids, ¬ m.heap.Mentions id)
    (distinct : (Piece.stmts (p ++ q)).ids.Nodup) :
    runTopLevel (.withFuel fuel) (p ++ q) (m.withTable (m.distances.merge t)) =
      withTable (m.distances.merge t) (runHalves fuel p q tp tq m) := by
  -- The first half may call old functions, but comes to nothing of the second.
  let R := Realm.among fun id => m.heap.Mentions id ∨ id ∈ (Piece.stmts p).ids
  have here : R.Holds m.heap := Realm.among_holds.mpr ⟨blind, fun id => .inl⟩
  have code : R.Code (.stmts p) := fun id mem => .inr mem
  have lawful := (Evaluator.lawful_withFuel R fuel).runTopLevel code
  have early := lawful.same (Realm.among_blind _) (m.withTable (m.distances.merge tp))
    (m.distances.merge t) here (agree_of_fresh first second whole fresh distinct)
  have back := (lawful.returns (m.withTable (m.distances.merge tp)) here).distances
    (Realm.among_blind _)
  have later := lawful.holds (m.withTable (m.distances.merge tp)) here
  change runTopLevel _ p (m.withTable (m.distances.merge t)) = _ at early
  rw [runTopLevel_append]
  rw [Run.bind_eq_match]
  unfold runHalves
  rw [early]
  cases result : runTopLevel (.withFuel fuel) p (m.withTable (m.distances.merge tp)) with
  | error halt m' => rfl
  | ok _ m' =>
    rw [result] at back later
    have table : m'.distances = m.distances.merge tp := back
    -- By now both tables have the same entries, so all code runs the same.
    have code : (Realm.among fun _ => True).Code (.stmts q) := fun _ _ => trivial
    have late := ((Evaluator.lawful_withFuel _ fuel).runTopLevel code).same (Realm.among_blind _)
      (m'.withTable (m'.distances.merge tq)) (m.distances.merge t)
      (Realm.among_all_holds (Realm.among_holds.mp later).1)
    refine late fun id _ => ?_
    change _ = (m'.distances.merge tq)[id]?
    rw [table]
    exact getElem?_merge_append first second whole m.distances id

end Halves

namespace Session

def inTurn (s : Session) (fuel : Nat) (first second : Prepared (List Stmt)) :
    Outcome Unit × Session :=
  match s.perform first (interpret fuel) with
  | (.done _, s') => s'.perform second (interpret fuel)
  | (outcome, s') => (outcome, s')

theorem perform_of_flush {s : Session} {prepared : Prepared (List Stmt)} (fuel : Nat)
    (flushes : s.machine.sink.flushFails = false) :
    s.perform prepared (interpret fuel) =
      (outcomeOf (runTopLevel (.withFuel fuel) prepared.tree
          (s.machine.withTable (s.tableFor prepared))),
        ⟨machineOf (runTopLevel (.withFuel fuel) prepared.tree
          (s.machine.withTable (s.tableFor prepared))), prepared.nextId⟩) := by
  rw [perform_eq, interpret_of_flush]
  exact flushes

theorem inTurn_eq {s : Session} {first second : Prepared (List Stmt)} (fuel : Nat)
    (flushes : s.machine.sink.flushFails = false) :
    let result := runHalves fuel first.tree second.tree first.distances second.distances s.machine
    (s.inTurn fuel first second).1 = outcomeOf result ∧
      (s.inTurn fuel first second).2.machine = machineOf result := by
  have flush := (runTopLevel_flushFails fuel first.tree
    (s.machine.withTable (s.tableFor first))).trans flushes
  unfold inTurn runHalves
  rw [perform_of_flush fuel flushes]
  unfold tableFor at flush ⊢
  cases result : runTopLevel (.withFuel fuel) first.tree
      (s.machine.withTable (s.machine.distances.merge first.distances)) with
  | error halt m' => cases halt <;> exact ⟨rfl, rfl⟩
  | ok _ m' =>
    rw [result] at flush
    dsimp only [outcomeOf, machineOf]
    rw [perform_of_flush fuel flush]
    exact ⟨rfl, rfl⟩

end Session

/-- Resolution accepts a program if and only if it accepts both halves, with the entries of both;
otherwise it reports what is wrong with the first half and then what is wrong with the second. And
where functions of the host know nothing of the table, running an accepted program whose references
are new comes to the same as running one half after the other. -/
theorem run_in_halves (s : Session) (p q : List Stmt)
    (fresh : ∀ id ∈ (Piece.stmts (p ++ q)).ids, ¬ s.machine.heap.Mentions id)
    (distinct : (Piece.stmts (p ++ q)).ids.Nodup) :
    ((∃ t, resolveProgram (p ++ q) = .ok t) ↔
      (∃ tp, resolveProgram p = .ok tp) ∧ ∃ tq, resolveProgram q = .ok tq) ∧
    (∀ errors, resolveProgram (p ++ q) = .error errors →
      errors = errorsIn (resolveProgram p) ++ errorsIn (resolveProgram q)) ∧
    ∀ tp tq t, resolveProgram p = .ok tp → resolveProgram q = .ok tq →
      resolveProgram (p ++ q) = .ok t →
      (∀ id : RefId, t[id]? = (tp.merge tq)[id]?) ∧
      (s.machine.heap.Hosts Deed.Blind → s.machine.sink.flushFails = false → ∀ (fuel : Nat) (mid hi : RefId),
        let halves := s.inTurn fuel ⟨p, tp, mid⟩ ⟨q, tq, hi⟩
        let whole := s.perform ⟨p ++ q, t, hi⟩ (interpret fuel)
        whole.1 = halves.1 ∧
        whole.2.machine = halves.2.machine.withTable whole.2.machine.distances ∧
        (whole.1 = .done () → ∀ id : RefId,
          whole.2.machine.distances[id]? = halves.2.machine.distances[id]?)) := by
  refine ⟨⟨fun ⟨t, whole⟩ => ?_, fun ⟨⟨tp, first⟩, tq, second⟩ => ?_⟩, fun errors failed => ?_,
    fun tp tq t first second whole => ⟨getElem?_append first second whole, fun blind flushes => ?_⟩⟩
  · obtain ⟨tp, tq, first, second, -⟩ := resolveProgram_append_ok.mp whole
    exact ⟨⟨tp, first⟩, tq, second⟩
  · exact ⟨_, resolveProgram_append_ok.mpr ⟨tp, tq, first, second, rfl⟩⟩
  · rw [← errorsIn_append, failed]
    rfl
  · intro fuel mid hi halves all
    obtain ⟨outcome, machine⟩ : halves.1 = _ ∧ halves.2.machine = _ :=
      Session.inTurn_eq fuel flushes
    -- The whole is the first half, then the second, up to the table in force at the end.
    have result : all = _ := Session.perform_of_flush fuel flushes
    unfold Session.tableFor at result
    rw [runTopLevel_halves first second whole blind fuel fresh distinct, outcomeOf_withTable,
      machineOf_withTable] at result
    rw [result, outcome, machine]
    refine ⟨rfl, rfl, fun done id => ?_⟩
    cases ended : runHalves fuel p q tp tq s.machine with
    | error halt m' =>
      rw [ended] at done
      cases halt <;> cases done
    | ok _ m' =>
      change (s.machine.distances.merge t)[id]? = m'.distances[id]?
      rw [runHalves_distances blind ended]
      exact getElem?_merge_append first second whole s.machine.distances id

def printing (id : RefId) (text : String) : List Stmt :=
  [.block [.var ⟨.symbol .identifier, "x", 1⟩ (some (.literal (.string text))),
    .print (.variable id ⟨.symbol .identifier, "x", 1⟩)]]

theorem run_in_halves_printing :
    ∃ tp tq t, resolveProgram (printing 0 "a") = .ok tp ∧ resolveProgram (printing 1 "b") = .ok tq ∧
      resolveProgram (printing 0 "a" ++ printing 1 "b") = .ok t ∧
      let s := Session.start .unlimited 0
      let whole := s.perform ⟨printing 0 "a" ++ printing 1 "b", t, 2⟩ (interpret 9)
      let halves := s.inTurn 9 ⟨printing 0 "a", tp, 1⟩ ⟨printing 1 "b", tq, 2⟩
      halves.1 = .done () ∧ halves.2.machine.sink.written.data = #[97, 10, 98, 10] ∧
        whole.1 = .done () ∧ whole.2.machine.sink.written.data = #[97, 10, 98, 10] := by
  have first : resolveProgram (printing 0 "a") = .ok _ := resolveProgram_eq_ok.mpr ⟨by cbv, rfl⟩
  have second : resolveProgram (printing 1 "b") = .ok _ := resolveProgram_eq_ok.mpr ⟨by cbv, rfl⟩
  have both : resolveProgram (printing 0 "a" ++ printing 1 "b") = .ok _ :=
    resolveProgram_append_ok.mpr ⟨_, _, first, second, rfl⟩
  have fresh : ∀ id ∈ (Piece.stmts (printing 0 "a" ++ printing 1 "b")).ids,
      ¬ (Session.start .unlimited 0).machine.heap.Mentions id := by
    rintro id - (⟨f, closure, found, -⟩ | ⟨native, mem, arguments, line, deed, reply, -⟩)
    · cases found
    · exact Heap.discreet_of_clock rfl native mem arguments line deed reply
  have distinct : (Piece.stmts (printing 0 "a" ++ printing 1 "b")).ids.Nodup := by decide
  obtain ⟨-, same⟩ := (run_in_halves (.start .unlimited 0) _ _ fresh distinct).2.2 _ _ _ first second both
  obtain ⟨outcome, machine, -⟩ := same ((Heap.discreet_of_clock rfl).hosts _) rfl 9 1 2
  refine ⟨_, _, _, first, second, both, by cbv, by cbv, ?_, ?_⟩
  · rw [outcome]
    cbv
  · rw [machine]
    cbv

end Quill
