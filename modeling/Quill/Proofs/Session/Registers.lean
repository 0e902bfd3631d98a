import Mathlib
import Quill.Proofs.Evaluator.Hosts
import Quill.Proofs.Grammar.Program
import Quill.Proofs.Resolution.Locality
import Quill.Proofs.Session.Tables

set_option autoImplicit false

namespace Quill

theorem parseExpression_numbered {lo hi : RefId} {tokens : List Token} {e : Expr}
    (h : parseExpression lo tokens = .ok (e, hi)) : Numbered lo hi e.ids :=
  (parseExpression_derives h).2

structure Prepared.Checked {α : Type} (lo : RefId) (p : Piece) (prepared : Prepared α) : Prop where
  numbered : Numbered lo prepared.nextId p.ids
  clean : (p.resolve .top .start).errors = []
  outside : ∀ id ∉ p.ids, prepared.distances[id]? = none

theorem Prepared.checked_of_result {α : Type} {lo : RefId} {p : Piece} {prepared : Prepared α}
    (numbered : Numbered lo prepared.nextId p.ids)
    (resolved : (p.resolve .top .start).result = .ok prepared.distances) :
    prepared.Checked lo p :=
  ⟨numbered, (Resolution.result_ok resolved).1, fun _ => p.distances_outside resolved⟩

theorem prepareProgram_checked {lo : RefId} {source : List UInt8} {prepared : Prepared (List Stmt)}
    (h : prepareProgram lo source = .ok prepared) : prepared.Checked lo (.stmts prepared.tree) := by
  have accepted := prepareProgram_accepted h
  exact Prepared.checked_of_result accepted.numbered accepted.resolved

theorem prepareExpression_checked {lo : RefId} {source : List UInt8} {prepared : Prepared Expr}
    (h : prepareExpression lo source = .ok prepared) : prepared.Checked lo (.expr prepared.tree) := by
  obtain ⟨tokens, -, parsed, resolved⟩ := prepareExpression_stages h
  exact Prepared.checked_of_result (parseExpression_numbered parsed) resolved

namespace Session

/-- Two sessions with the same objects, which differ at most in what is recorded about references
that no function of them mentions any more. -/
structure Alike (s s' : Session) : Prop extends SameButTable s s' where
  mentioned : ∀ id, s.machine.heap.Mentions id →
    s'.machine.distances[id]? = s.machine.distances[id]?
  unused : ∀ id, s.nextId ≤ id → s'.machine.distances[id]? = s.machine.distances[id]?

section Alike

variable {α β : Type} {s s' : Session} {prepared : Prepared α} {action : α → Run β} {p : Piece}

theorem Alike.perform (alike : s.Alike s') (blind : s.machine.heap.Hosts Deed.Blind)
    (checked : prepared.Checked s.nextId p)
    (lawful : ∀ R : Realm, R.Code p → Run.Lawful R (action prepared.tree) (action prepared.tree)) :
    (s'.perform prepared action).1 = (s.perform prepared action).1 ∧
      (s.perform prepared action).2.Alike (s'.perform prepared action).2 := by
  -- All that either session can come to is code that is there already and code that is new.
  let R := Realm.among fun id => s.machine.heap.Mentions id ∨ s.nextId ≤ id
  have code : R.Code p := fun id mem => .inr (checked.numbered.mem id mem).1
  have here : R.Holds s.machine.heap := Realm.among_holds.mpr ⟨blind, fun id => .inl⟩
  have agree : R.Agree (s.tableFor prepared) (s'.tableFor prepared) := by
    intro id ref
    unfold tableFor
    rw [Distances.getElem?_merge, Distances.getElem?_merge]
    rcases ref with mentioned | unused
    · rw [alike.mentioned id mentioned]
    · rw [alike.unused id unused]
  obtain ⟨outcome, same⟩ :=
    alike.toSameButTable.perform (lawful R code) here (Realm.among_blind _) agree
  have here' : R.Holds s'.machine.heap := by
    rw [alike.machine]
    exact here
  have table := perform_distances (lawful R code) here (Realm.among_blind _)
  have table' := perform_distances (lawful R code) here' (Realm.among_blind _)
  refine ⟨outcome, same, fun id mentioned => ?_, fun id unused => ?_⟩
  · have holds := perform_holds (lawful R code) here
    rw [table, table']
    exact agree id ((Realm.among_holds.mp holds).2 id mentioned)
  · rw [table, table']
    rw [perform_eq] at unused
    exact agree id (.inr (Nat.le_trans checked.numbered.le unused))

theorem Alike.discard {γ : Type} {rule : Parser γ} (alike : s.Alike s')
    (keeps : ∀ lo, rule.Keeps (Cursor.countingFrom lo)) (source : List UInt8) :
    (s.discard rule source).Alike (s'.discard rule source) := by
  have le := nextId_le_discard keeps s source
  refine ⟨⟨?_, ?_⟩, ?_, fun id unused => ?_⟩
  · rw [discard_machine, discard_machine]
    exact alike.machine
  · unfold Session.discard
    rw [alike.nextId]
    cases scanTokens source with
    | error _ => exact alike.nextId
    | ok tokens => rfl
  · rw [discard_machine, discard_machine]
    exact alike.mentioned
  · rw [discard_machine, discard_machine]
    exact alike.unused id (Nat.le_trans le unused)

theorem Alike.run (alike : s.Alike s') (blind : s.machine.heap.Hosts Deed.Blind) (fuel : Nat)
    (source : List UInt8) :
    (s'.run fuel source).1 = (s.run fuel source).1 ∧
      (s.run fuel source).2.Alike (s'.run fuel source).2 := by
  unfold Session.run
  rw [alike.nextId]
  cases prepares : prepareProgram s.nextId source with
  | error errors => exact ⟨rfl, alike.discard (fun _ => programRule_keeps) source⟩
  | ok prepared =>
    exact alike.perform blind (prepareProgram_checked prepares)
      fun R code => interpret_lawful code fuel

theorem Alike.evaluate (alike : s.Alike s') (blind : s.machine.heap.Hosts Deed.Blind) (fuel : Nat)
    (source : List UInt8) :
    (s'.evaluate fuel source).1 = (s.evaluate fuel source).1 ∧
      (s.evaluate fuel source).2.Alike (s'.evaluate fuel source).2 := by
  unfold Session.evaluate
  rw [alike.nextId]
  cases prepares : prepareExpression s.nextId source with
  | error errors => exact ⟨rfl, alike.discard (fun _ => loneExpressionRule_keeps) source⟩
  | ok prepared =>
    exact alike.perform blind (prepareExpression_checked prepares)
      fun R code => evaluate_lawful code fuel

end Alike

/-- All that is done with a session from its start on: sources are run or evaluated, whatever comes
of it, functions of the host of some kind are added, and calls are limited. -/
inductive Used (Host : Native → Prop) : Session → Prop where
  | start (sink : Sink) (clock : Clock) : Used Host (.start sink clock)
  | limited {s : Session} (depth : Nat) : Used Host s → Used Host (s.withMaxDepth depth)
  | extended {s s' : Session} {native : Native} :
      Used Host s → Host native → s.addNative native = .ok s' → Used Host s'
  | ran {s : Session} (fuel : Nat) (source : List UInt8) :
      Used Host s → Used Host (s.run fuel source).2
  | evaluated {s : Session} (fuel : Nat) (source : List UInt8) :
      Used Host s → Used Host (s.evaluate fuel source).2

/-- A session that nothing is going on in, and in which no function of the host changes that. -/
structure Idle (s : Session) : Prop where
  hosts : s.machine.heap.Hosts Deed.Restoring
  globals : s.machine.globals = 0
  scope : s.machine.scope = 0
  depth : s.machine.depth = 0
  unused : ∀ id, s.nextId ≤ id → s.machine.distances[id]? = none

section Idle

variable {α β : Type} {s s' : Session} {prepared : Prepared α} {action : α → Run β} {p : Piece}

theorem Idle.perform (idle : s.Idle) (checked : prepared.Checked s.nextId p)
    (leaves : Run.Leaves Deed.Restoring Machine.registers (action prepared.tree)) :
    (s.perform prepared action).2.Idle := by
  obtain ⟨back, hosts⟩ := leaves (s.machine.withTable (s.tableFor prepared)) idle.hosts
  obtain ⟨globals, scope, table, depth, -⟩ := Registers.mk.inj back
  rw [perform_eq]
  refine ⟨hosts, globals.trans idle.globals, scope.trans idle.scope, depth.trans idle.depth,
    fun id unused => ?_⟩
  have outside : id ∉ p.ids := fun mem =>
    Nat.not_lt_of_le unused (checked.numbered.mem id mem).2
  dsimp only
  rw [table]
  change (s.tableFor prepared)[id]? = none
  unfold tableFor
  rw [Distances.getElem?_merge, checked.outside id outside,
    idle.unused id (Nat.le_trans checked.numbered.le unused)]
  rfl

theorem addNative_ok {native : Native} (added : s.addNative native = .ok s') :
    ∃ heap, heap = (s.machine.heap.addNative native).write s.machine.globals native.name
      (.native s.machine.heap.natives.size) ∧ s' = { s with machine.heap := heap } := by
  unfold addNative Heap.define at added
  dsimp only at added
  cases free : (s.machine.heap.addNative native).definable s.machine.globals native.name 0 with
  | error e =>
    rw [free] at added
    cases added
  | ok =>
    rw [free] at added
    cases added
    exact ⟨_, rfl, rfl⟩

theorem Idle.later (idle : s.Idle) (machine : s'.machine = s.machine) (le : s.nextId ≤ s'.nextId) :
    s'.Idle := by
  obtain ⟨hosts, globals, scope, depth, unused⟩ := idle
  rw [← machine] at hosts globals scope depth unused
  exact ⟨hosts, globals, scope, depth, fun id le' => unused id (Nat.le_trans le le')⟩

theorem Used.idle {Host : Native → Prop} (used : s.Used Host)
    (restoring : ∀ native, Host native → native.Within Deed.Restoring) : s.Idle := by
  induction used with
  | start sink clock =>
    exact ⟨(Heap.discreet_of_clock rfl).hosts _, rfl, rfl, rfl, fun id _ => rfl⟩
  | limited depth _ ih => exact ⟨ih.hosts, ih.globals, ih.scope, ih.depth, ih.unused⟩
  | extended _ host added ih =>
    obtain ⟨heap, rfl, rfl⟩ := addNative_ok added
    exact ⟨ih.hosts.addNative (restoring _ host), ih.globals, ih.scope, ih.depth, ih.unused⟩
  | @ran s fuel source _ ih =>
    cases prepares : prepareProgram s.nextId source with
    | error errors =>
      rw [run_rejected fuel prepares]
      exact ih.later (s.discard_machine programRule source) (s.nextId_le_discard_program source)
    | ok prepared =>
      rw [run_prepared fuel prepares]
      exact ih.perform (prepareProgram_checked prepares)
        (Machine.lasting_registers.interpret _ fuel prepared.tree)
  | @evaluated s fuel source _ ih =>
    cases prepares : prepareExpression s.nextId source with
    | error errors =>
      rw [evaluate_rejected fuel prepares]
      exact ih.later (s.discard_machine loneExpressionRule source)
        (s.nextId_le_discard_expression source)
    | ok prepared =>
      rw [evaluate_prepared fuel prepares]
      exact ih.perform (prepareExpression_checked prepares)
        (Machine.lasting_registers.withFuel _ fuel (t := .expr prepared.tree) trivial)

theorem Used.idle_of_discreet (used : s.Used Native.Discreet) : s.Idle :=
  used.idle fun _ discreet => discreet.within Deed.Restoring

theorem Used.holds {Host : Native → Prop} {R : Realm} (used : s.Used Host) (clock : R.Host .clock)
    (host : ∀ native, Host native → R.Host native)
    (program : ∀ {lo source prepared}, prepareProgram lo source = .ok prepared →
      R.Code (.stmts prepared.tree))
    (expression : ∀ {lo source prepared}, prepareExpression lo source = .ok prepared →
      R.Code (.expr prepared.tree)) :
    R.Holds s.machine.heap := by
  induction used with
  | start sink _ =>
    refine ⟨fun _ _ found => (by cases found), fun id native found => ?_⟩
    have mem : native ∈ #[Native.clock] := Array.mem_of_getElem? found
    exact Array.mem_singleton.mp mem ▸ clock
  | limited _ _ ih => exact ih
  | extended _ own added ih =>
    obtain ⟨heap, rfl, rfl⟩ := addNative_ok added
    refine ⟨ih.closures, fun id native found => ?_⟩
    rcases Heap.getElem?_push_cases found with old | ⟨-, rfl⟩
    · exact ih.natives id native old
    · exact host _ own
  | @ran s fuel source _ ih =>
    cases prepares : prepareProgram s.nextId source with
    | error errors =>
      rw [run_rejected fuel prepares, discard_machine]
      exact ih
    | ok prepared =>
      rw [run_prepared fuel prepares]
      exact perform_holds (interpret_lawful (program prepares) fuel) ih
  | @evaluated s fuel source _ ih =>
    cases prepares : prepareExpression s.nextId source with
    | error errors =>
      rw [evaluate_rejected fuel prepares, discard_machine]
      exact ih
    | ok prepared =>
      rw [evaluate_prepared fuel prepares]
      exact perform_holds (evaluate_lawful (expression prepares) fuel) ih

theorem Used.discreet (used : s.Used Native.Discreet) : s.machine.heap.Discreet :=
  (used.holds (R := .whole) Native.clock_discreet (fun _ discreet => discreet) (fun _ => trivial)
    fun _ => trivial).discreet Realm.whole_quiet

theorem Used.blind {A : Deed → Prop} (used : s.Used (Native.Within A))
    (blind : ∀ deed, A deed → deed.Blind) : s.machine.heap.Hosts Deed.Blind := by
  have clock : Native.clock.Within (Deed.Among fun _ => True) := Native.clock_discreet.within _
  have holds := used.holds (R := .among fun _ => True) clock
    (fun _ within arguments line deed reply =>
      ⟨blind deed (within arguments line deed reply), fun _ _ => trivial⟩)
    (fun _ _ _ => trivial) fun _ _ _ => trivial
  exact (Realm.among_holds.mp holds).1

end Idle

def renewed (s : Session) (table : Distances) : Session :=
  let fresh := Machine.start s.machine.sink s.machine.clock
  ⟨{ fresh with
    heap := s.machine.heap
    maxDepth := s.machine.maxDepth
    memory := s.machine.memory
    distances := table }, s.nextId⟩

/-- The table has the entries for code that is still there, and none for code to come. -/
structure Covers (s : Session) (table : Distances) : Prop where
  mentioned : ∀ id, s.machine.heap.Mentions id → table[id]? = s.machine.distances[id]?
  unused : ∀ id, s.nextId ≤ id → table[id]? = none

theorem Idle.renewed_eq {s : Session} (idle : s.Idle) (table : Distances) :
    s.renewed table = { s with machine := s.machine.withTable table } := by
  obtain ⟨⟨heap, globals, scope, distances, sink, clock, depth, maxDepth, memory⟩, nextId⟩ := s
  obtain ⟨-, rfl, rfl, rfl, -⟩ := idle
  rfl

theorem Idle.alike_renewed {s : Session} {table : Distances} (idle : s.Idle)
    (covers : s.Covers table) : s.Alike (s.renewed table) := by
  rw [idle.renewed_eq]
  refine ⟨⟨rfl, rfl⟩, covers.mentioned, fun id unused => ?_⟩
  · rw [idle.unused id unused]
    exact covers.unused id unused

end Session

/-- As long as no function of the host changes the registers by itself, whatever it calls, evaluates
and executes, they are the same after a run, whatever comes of it. So between two sources of a session
nothing is going on, and the machine is one just started that has the same objects, table, clock and
sink. If functions of the host know nothing of the table, even the table is to the next run no more
than what it records about the code that is still there. -/
theorem registers_restored :
    (∀ (fuel : Nat) (s : Stmt) (m : Machine), m.heap.Hosts Deed.Restoring →
      (machineOf (execute fuel s m)).registers = m.registers) ∧
    (∀ (fuel : Nat) (e : Expr) (m : Machine), m.heap.Hosts Deed.Restoring →
      (machineOf (evaluate fuel e m)).registers = m.registers) ∧
    (∀ s : Session, s.Used (Native.Within Deed.Restoring) →
      s.machine.scope = s.machine.globals ∧ s.machine.depth = 0 ∧
      s.renewed s.machine.distances = s) ∧
    ∀ s : Session, s.Used (Native.Within fun deed => deed.Restoring ∧ deed.Blind) →
      ∀ table, s.Covers table →
      (∀ fuel source, ((s.renewed table).run fuel source).1 = (s.run fuel source).1 ∧
        (s.run fuel source).2.Alike ((s.renewed table).run fuel source).2) ∧
      (∀ fuel source, ((s.renewed table).evaluate fuel source).1 = (s.evaluate fuel source).1 ∧
        (s.evaluate fuel source).2.Alike ((s.renewed table).evaluate fuel source).2) := by
  have lasts := Machine.lasting_registers.withFuel fun _ => True
  refine ⟨fun fuel s m hosts => ?_, fun fuel e m hosts => ?_, fun s used => ?_,
    fun s used table covers => ?_⟩
  · exact (lasts fuel (t := .stmt s) trivial m hosts).1
  · exact (lasts fuel (t := .expr e) trivial m hosts).1
  · have idle := used.idle fun _ restoring => restoring
    exact ⟨idle.scope.trans idle.globals.symm, idle.depth, idle.renewed_eq s.machine.distances⟩
  · have idle := used.idle fun _ within arguments line deed reply =>
      (within arguments line deed reply).1
    have blind := used.blind fun _ both => both.2
    exact ⟨(idle.alike_renewed covers).run blind, (idle.alike_renewed covers).evaluate blind⟩

def Machine.hosting (native : Native) : Machine :=
  let m := Machine.start .unlimited 0
  { m with heap := (m.heap.addNative native).write 0 native.name (.native 1), maxDepth := 3 }

def callingHost (name : String) : Expr :=
  .call (.variable 0 (nameToken name)) (symbolToken .rightParen) []

def bottomlessFunction : Stmt :=
  .function ⟨some (nameToken "f"), [], [.block [.expression (callingHost "f")]]⟩

def Native.recover : Native where
  name := "recover"
  arity := 0
  respond _ _ := .act (.execute bottomlessFunction fun _ =>
    .call (.function 0) [] fun _ => .done (.ok .nil))

theorem Native.recover_restoring : Native.recover.Within Deed.Restoring := by
  rintro _ _ _ ⟨⟩
  exact ⟨trivial, fun _ _ => trivial⟩

def bottomless : List UInt8 :=
  "fun f() { { f(); } } f();".toUTF8.data.toList

def overflown : Session :=
  (((Session.start .unlimited 0).withMaxDepth 3).run 20 bottomless).2

theorem registers_restored_overflown :
    (∃ m, evaluate 30 (callingHost "recover") (.hosting .recover) = .ok .nil m ∧
      m.registers = (Machine.hosting .recover).registers) ∧
    (∃ m, execute 31 (.expression (callingHost "recover")) (.hosting .recover) = .ok .normal m ∧
      m.registers = (Machine.hosting .recover).registers) ∧
    (((Session.start .unlimited 0).withMaxDepth 3).run 20 bottomless).1 =
      .failed [.runtime .stackOverflow 1] ∧
    overflown.machine.scope = overflown.machine.globals ∧ overflown.machine.depth = 0 ∧
    ∀ fuel source,
      ((overflown.renewed overflown.machine.distances).run fuel source).1 =
        (overflown.run fuel source).1 := by
  obtain ⟨executed, evaluated, between, later⟩ := registers_restored
  have hosts : (Machine.hosting .recover).heap.Hosts Deed.Restoring :=
    ((Heap.discreet_of_clock rfl).hosts _).addNative Native.recover_restoring
  have called : evaluate 30 (callingHost "recover") (.hosting .recover) = .ok .nil
      (machineOf (evaluate 30 (callingHost "recover") (.hosting .recover))) := by cbv
  have done : execute 31 (.expression (callingHost "recover")) (.hosting .recover) = .ok .normal
      (machineOf (execute 31 (.expression (callingHost "recover")) (.hosting .recover))) := by cbv
  have failed : (((Session.start .unlimited 0).withMaxDepth 3).run 20 bottomless).1 =
      .failed [.runtime .stackOverflow 1] := by cbv
  have used {Host : Native → Prop} : overflown.Used Host :=
    .ran 20 bottomless (.limited 3 (.start .unlimited 0))
  have covers : overflown.Covers overflown.machine.distances :=
    ⟨fun _ _ => rfl, used.idle_of_discreet.unused⟩
  obtain ⟨scope, depth, -⟩ := between overflown used
  exact ⟨⟨_, called, evaluated 30 _ _ hosts⟩, ⟨_, done, executed 31 _ _ hosts⟩, failed, scope, depth,
    fun fuel source => ((later overflown used _ covers).1 fuel source).1⟩

def Native.limit : Native where
  name := "limit"
  arity := 0
  respond _ _ := .act (.change (fun v => { v with maxDepth := 5 }) fun _ => .done (.ok .nil))

def printingNil : List UInt8 :=
  "print nil;".toUTF8.data.toList

def printingFalse : List UInt8 :=
  "print false;".toUTF8.data.toList

def fourBytes : Session :=
  .start ⟨.empty, some 4, false⟩ 0

/-- The sink takes what `print nil;` prints, unless a run before has failed for want of room. -/
theorem registers_not_restored_limit :
    (∃ m, evaluate 3 (callingHost "limit") (.hosting .limit) = .ok .nil m ∧
      m.maxDepth ≠ (Machine.hosting .limit).maxDepth) ∧
    (fourBytes.run 5 printingNil).1 = .done () ∧
    (fourBytes.run 5 printingFalse).2.machine.heap = fourBytes.machine.heap ∧
    ((fourBytes.run 5 printingFalse).2.run 5 printingNil).1 = .failed [.io .sinkFull] := by
  have called : evaluate 3 (callingHost "limit") (.hosting .limit) = .ok .nil
      { Machine.hosting .limit with maxDepth := 5 } := by cbv
  exact ⟨⟨_, called, by decide⟩, by cbv, by cbv, by cbv⟩

end Quill
