import Quill.Proofs.Session.ControlFlow
import Quill.Proofs.Session.Declarations
import Quill.Proofs.Session.Objects

set_option autoImplicit false

namespace Quill

namespace Piece

def sites (around : List Layer) (inherits : Bool) : Piece → List Site
  | expr e => e.sites around
  | exprs es => exprSites around es
  | function f => f.sites around
  | functions fs => methodSites around inherits fs
  | stmt s => s.sites around
  | stmts body => stmtSites around body

def Distinct (p : Piece) : Prop :=
  ∃ around inherits, ∀ s ∈ p.sites around inherits, s.scope.Nodup

theorem Distinct.part {p q : Piece} (distinct : p.Distinct) (mem : q ∈ p.parts) : q.Distinct := by
  obtain ⟨around, inherits, each⟩ := distinct
  -- A part has its sites among those of the whole, seen from where it stands.
  suffices sub : ∃ around' inherits', q.sites around' inherits' ⊆ p.sites around inherits by
    obtain ⟨around', inherits', sub⟩ := sub
    exact ⟨around', inherits', fun s hit => each s (sub hit)⟩
  have same (sub : ∀ q ∈ p.parts, q.sites around inherits ⊆ p.sites around inherits) :
      ∃ around' inherits', q.sites around' inherits' ⊆ p.sites around inherits :=
    ⟨around, inherits, sub q mem⟩
  cases p with
  | expr e => exact same (by cases e <;> simp [parts, Expr.parts, sites, Expr.sites])
  | exprs es => exact same (by cases es <;> simp [parts, sites, exprSites])
  | stmts body => exact same (by cases body <;> simp [parts, sites, stmtSites])
  | functions fs => exact same (by cases fs <;> simp [parts, sites, methodSites])
  | function f => cases mem
  | stmt s =>
    cases s with
    | breakLoop | function => cases mem
    | expression e | print e => exact same (by simp [parts, Stmt.parts, sites, Stmt.sites])
    | var _ value | returnFrom _ value =>
      exact same (by cases value <;> simp [parts, Stmt.parts, sites, Stmt.sites])
    | conditional _ _ other =>
      exact same (by
        cases other <;>
          simp +contextual [parts, Stmt.parts, sites, Stmt.sites, List.subset_def])
    | block body =>
      refine ⟨.block :: around, inherits, ?_⟩
      rw [List.mem_singleton.mp mem]
      simp [sites, Stmt.sites]
    | loop condition body =>
      rcases List.mem_cons.mp mem with rfl | mem
      · exact ⟨around, inherits, by simp [sites, Stmt.sites]⟩
      · refine ⟨.loop :: around, inherits, ?_⟩
        rw [List.mem_singleton.mp mem]
        simp [sites, Stmt.sites]
    | classDecl _ superclass methods =>
      cases superclass with
      | none =>
        refine ⟨around, false, ?_⟩
        rw [List.mem_singleton.mp mem]
        simp [sites, Stmt.sites]
      | some e =>
        refine ⟨around, true, ?_⟩
        rcases List.mem_cons.mp mem with rfl | mem
        · simp [sites, Stmt.sites]
        · rw [List.mem_singleton.mp mem]
          simp [sites, Stmt.sites]

theorem wellFormed_part {p q : Piece} (wf : p.WellFormed) (mem : q ∈ p.parts) : q.WellFormed := by
  suffices each : ∀ q ∈ p.parts, q.WellFormed from each q mem
  cases p with
  | expr e => cases e <;> simp_all [parts, Expr.parts, WellFormed, Expr.WellFormed]
  | exprs es => cases es <;> simp_all [parts, WellFormed, WellFormedExprs]
  | stmts body => cases body <;> simp_all [parts, WellFormed, WellFormedStmts]
  | functions fs => cases fs <;> simp_all [parts, WellFormed, WellFormedFunctions]
  | function f => exact fun q mem => by cases mem
  | stmt s =>
    cases s with
    | var _ value | returnFrom _ value =>
      cases value <;> simp_all [parts, Stmt.parts, WellFormed, Stmt.WellFormed]
    | conditional _ _ other =>
      cases other <;> simp_all [parts, Stmt.parts, WellFormed, Stmt.WellFormed]
    | classDecl _ superclass _ =>
      cases superclass with
      | none => simp_all [parts, Stmt.parts, WellFormed, Stmt.WellFormed]
      | some e =>
        have above := wellFormed_of_superclass wf.2.1
        simp_all [parts, Stmt.parts, WellFormed, Stmt.WellFormed]
    | _ => simp_all [parts, Stmt.parts, WellFormed, Stmt.WellFormed]

end Piece

def Realm.distinct (Host : Native → Prop) (discreet : ∀ native, Host native → native.Discreet) :
    Realm where
  Code p := p.WellFormed ∧ p.Distinct
  Callee f _ := f.WellFormed ∧ (Piece.function f).Distinct
  Host := Host
  Act _ := False
  Ref _ := True
  Fault _ := True
  parts code mem := ⟨Piece.wellFormed_part code.1 mem, code.2.part mem⟩
  anonymous := by
    rintro f ⟨wf, around, inherits, each⟩
    exact ⟨wf, .anonymous :: around, inherits, fun s hit => each s (List.mem_cons_of_mem _ hit)⟩
  named := by
    rintro f ⟨wf, around, inherits, each⟩
    exact ⟨wf.2, .function :: around, inherits, fun s hit => each s (List.mem_cons_of_mem _ hit)⟩
  method := by
    rintro f rest ⟨wf, around, inherits, each⟩
    exact ⟨wf.1, .method inherits f.label :: around, inherits,
      fun s hit => each s (List.mem_append_left _ hit)⟩
  body := by
    rintro ⟨name, params, body⟩ _ ⟨wf, around, inherits, each⟩
    exact ⟨wf.2, around, inherits, fun s hit => each s (List.mem_cons_of_mem _ hit)⟩
  acts := discreet _
  refs _ _ := trivial
  dynamic _ := trivial
  host _ _ := trivial
  stays act := act.elim

section Distinct

variable {Host : Native → Prop} (discreet : ∀ native, Host native → native.Discreet)

theorem Realm.distinct_distinct
    (modest : ∀ {native arguments line e}, Host native → native.respond arguments line = .error e →
      e.isRedefinition = false) : (Realm.distinct Host discreet).Distinct where
  block := by
    rintro body ⟨-, around, inherits, each⟩
    exact each _ List.mem_cons_self
  callee := by
    rintro ⟨name, params, body⟩ _ ⟨-, around, inherits, each⟩
    have nodup : ((params ++ declarationsOf body).map Token.lexeme).Nodup :=
      each _ List.mem_cons_self
    rwa [List.map_append] at nodup
  loop := by
    rintro condition body ⟨wf, -⟩
    rw [Stmt.names, body.declarations_of_silent wf.2.1 wf.2.2]
    rfl
  host := modest
  quiet _ := id

theorem prepareProgram_distinct {lo : RefId} {source : List UInt8}
    {prepared : Prepared (List Stmt)} (prepares : prepareProgram lo source = .ok prepared) :
    (Realm.distinct Host discreet).Code (.stmts prepared.tree) := by
  have accepted := prepareProgram_accepted prepares
  have none := (resolveProgram_eq_ok.mp accepted.resolved).1
  have right := (scoping_errors prepared.tree).mp (by rw [none]; rfl)
  exact ⟨accepted.wellFormed, [], false, fun s mem => (right s mem).distinct⟩

theorem prepareExpression_distinct {lo : RefId} {source : List UInt8} {prepared : Prepared Expr}
    (prepares : prepareExpression lo source = .ok prepared) :
    (Realm.distinct Host discreet).Code (.expr prepared.tree) := by
  have clean := (prepareExpression_checked prepares).clean
  have quiet : Resolution.Quiet (prepared.tree.resolve .top) .start := by
    change (Resolution.errors _).filter _ = _
    rw [show (prepared.tree.resolve .top .start).errors = [] from clean]
    rfl
  have right := ((prepared.tree.resolve_checks .top []).quiet .start).mp quiet
  exact ⟨prepareExpression_wellFormed prepares, [], false, fun s mem => (right.1 s mem).distinct⟩

theorem Session.Used.distinct {s : Session} (used : s.Used Native.Discreet) :
    (Realm.distinct Native.Discreet fun _ => id).Holds s.machine.heap :=
  used.holds Native.clock_discreet (fun _ => id) (prepareProgram_distinct _)
    (prepareExpression_distinct _)

end Distinct

def Realm.clocked : Realm :=
  .distinct (· = .clock) fun _ same => same ▸ Native.clock_discreet

theorem Realm.clocked_quiet : Realm.clocked.Quiet :=
  fun _ => id

theorem Realm.clocked_distinct : Realm.clocked.Distinct := by
  refine distinct_distinct _ fun same failed => ?_
  subst same
  cases failed

theorem Session.Used.clocked {s : Session} (used : s.Used Native.Discreet)
    (natives : s.machine.heap.natives = #[.clock]) : Realm.clocked.Holds s.machine.heap := by
  refine ⟨used.distinct.closures, fun id native found => ?_⟩
  rw [natives] at found
  have only := List.mem_of_getElem? (Array.getElem?_toList.trans found)
  exact List.mem_singleton.mp only

theorem Mute.declaration {rounds : Nat} {d : Stmt} {name : Token}
    (declared : d.declared? = some name) : Mute rounds fun ev => ev.execRule d := by
  cases d with
  | var _ value => exact (evalOptional value).bind fun _ => const _
  | function f => exact const _
  | classDecl name superclass methods => exact execClass name superclass methods
  | _ => cases declared

namespace Moment

/-- A declaration has come to its value and is about to bind its name to it. -/
def Defines (a : Moment) (name : Token) (v : Value) (m : Machine) : Prop :=
  ∃ n d, a.fuel = n + 1 ∧ a.task = .stmt d ∧ d.declared? = some name ∧
    (Evaluator.withFuel n).initial d a.machine = .ok v m

variable {a b : Moment} {name : Token} {v : Value} {m : Machine}

theorem Defines.machine_eq {name' : Token} {v' : Value} {m' : Machine}
    (defines : a.Defines name v m) (defines' : a.Defines name' v' m') : m' = m := by
  obtain ⟨fuel, t, m₀⟩ := a
  obtain ⟨n, d, rfl, rfl, -, first⟩ := defines
  obtain ⟨n', d', same, task, -, first'⟩ := defines'
  cases same
  cases task
  rw [first] at first'
  cases first'
  rfl

theorem Defines.defined (defines : a.Defines name v m) (fine : refuses a.result = false) :
    Run.define name v m = .ok () { m with heap := m.heap.write m.scope name.lexeme v } := by
  rcases Run.define_cases name v m with ⟨-, defined⟩ | ⟨-, refused⟩
  · exact defined
  obtain ⟨fuel, t, m₀⟩ := a
  obtain ⟨n, d, rfl, rfl, declared, first⟩ := defines
  have failed : result ⟨n + 1, .stmt d, m₀⟩ =
      .error (.error (.runtime (.redefined name.lexeme) name.line)) m := by
    change (Evaluator.withFuel n).execRule d m₀ = _
    rw [Evaluator.execRule_declared _ declared, Run.bind_of_ok first]
    exact Run.bind_of_error refused
  rw [failed] at fine
  cases fine

theorem declared_of_refuses (task : Realm.clocked.Task a.task)
    (here : Realm.clocked.Holds a.machine.heap) (refused : refuses a.result = true) :
    ∃ d name, a.task = .stmt d ∧ d.declared? = some name := by
  obtain ⟨n, t, m⟩ := a
  have confines := Evaluator.confined_withFuel Realm.clocked_quiet n t task m here
  have named : t.names ≠ [] := by
    intro none
    rw [none] at confines
    have fine := confines.distinct Realm.clocked_distinct (m.heap.free_nil m.scope)
    exact absurd (fine.symm.trans refused) Bool.noConfusion
  cases t with
  | expr | call | act => exact absurd rfl named
  | stmt d =>
    refine ⟨d, ?_⟩
    cases declared : d.declared? with
    | some name => exact ⟨name, rfl, rfl⟩
    | none =>
      have names := Stmt.names_of_wellFormed task.1
      rw [declared] at names
      exact absurd names named

theorem Part.refuses (part : a.Part b) (refused : refuses a.result = true) :
    refuses b.result = true := by
  cases result : a.result with
  | ok v m' =>
    rw [result] at refused
    cases refused
  | error halt m' =>
    rw [result] at refused
    obtain ⟨m'', failed⟩ := part.2.fails result
    unfold Moment.result
    rw [part.1, Evaluator.answer_withFuel_succ]
    rw [failed]
    exact refused

end Moment

theorem Evaluator.exec_refused {fuel : Nat} {d : Stmt} {name : Token} {m : Machine}
    (code : Realm.clocked.Code (.stmt d)) (here : Realm.clocked.Holds m.heap)
    (declared : d.declared? = some name) (refused : refuses ((withFuel fuel).exec d m) = true) :
    ∃ n v m₁, fuel = n + 1 ∧ (withFuel n).initial d m = .ok v m₁ ∧
      m₁.heap.Binds m₁.scope name.lexeme ∧ (withFuel fuel).exec d m =
        .error (.error (.runtime (.redefined name.lexeme) name.line)) m₁ := by
  cases fuel with
  | zero => cases refused
  | succ n =>
    have confined := confined_withFuel Realm.clocked_quiet n
    -- Neither what comes before nor what comes after the definition declares anything.
    have fine {α : Type} {x : Run α} {m : Machine}
        (silent : Run.Confined Realm.clocked.toRegion [] x)
        (here : Realm.clocked.Holds m.heap) : refuses (x m) = false :=
      (silent m here).distinct Realm.clocked_distinct (m.heap.free_nil m.scope)
    have early := initial_confined confined code
    have late := complete_confined confined code
    rcases @execRule_stages m name (withFuel n) d _ declared rfl with
      ⟨halt, m₁, first, halts⟩ | ⟨v, m₁, first, ⟨bound, halts⟩ | ⟨-, rest⟩⟩
    · have none := fine early here
      rw [first] at none
      rw [show (withFuel (n + 1)).exec d m = _ from halts] at refused
      exact absurd (none.symm.trans refused) Bool.noConfusion
    · exact ⟨n, v, m₁, rfl, first, bound, halts⟩
    · have holds := (early m here).holds
      rw [first] at holds
      have none := fine (m := { m₁ with heap := m₁.heap.write m₁.scope name.lexeme v }) late
        (holds.congr ⟨rfl, rfl⟩)
      rw [rest] at none
      exact absurd (none.symm.trans refused) Bool.noConfusion

namespace Episode.Path

variable {r : Episode} {a : Moment} {around : List Moment}

theorem refused_first (code : Realm.clocked.Code (.stmts r.program))
    (here : Realm.clocked.Holds r.machine.heap) (path : r.Path (a :: around))
    (refused : refuses a.result = true) : around = [] := by
  cases path with
  | first => rfl
  | @part _ b around outer part =>
    -- What is around it is refused too, so it is a declaration, and runs no statements.
    obtain ⟨task, holds⟩ := (Path.part outer part).within Realm.clocked_quiet code here
    obtain ⟨d, name, same, -⟩ := Moment.declared_of_refuses task holds refused
    obtain ⟨task', holds'⟩ := outer.within Realm.clocked_quiet code here
    obtain ⟨d', name', same', declared⟩ :=
      Moment.declared_of_refuses task' holds' (part.refuses refused)
    have comes := part.2
    rw [same, same'] at comes
    exact ((Mute.declaration declared).silent rfl comes).elim

theorem refused_defines (code : Realm.clocked.Code (.stmts r.program))
    (here : Realm.clocked.Holds r.machine.heap) (path : r.Path (a :: around))
    (refused : refuses a.result = true) :
    ∃ d ∈ r.program, ∃ name v m, a.task = .stmt d ∧ a.Defines name v m ∧
      m.scope = r.machine.scope ∧ m.globals = r.machine.globals ∧
      m.heap.Binds m.scope name.lexeme ∧ execute a.fuel d a.machine =
        .error (.error (.runtime (.redefined name.lexeme) name.line)) m := by
  have none := path.refused_first code here refused
  subst none
  obtain ⟨task, holds⟩ := path.within Realm.clocked_quiet code here
  obtain ⟨d, name, same, declared⟩ := Moment.declared_of_refuses task holds refused
  cases path with
  | first comes =>
    obtain ⟨d', mem, same', around, entered, -⟩ := comes.stmt (here.discreet Realm.clocked_quiet)
    obtain ⟨fuel, t, m⟩ := a
    cases same
    cases same'
    obtain ⟨n, v, m₁, rfl, first, bound, failed⟩ :=
      Evaluator.exec_refused task holds declared refused
    have back := (execute_lawful (R := .whole) (s := d) trivial (n + 1)).restored
      Realm.whole_quiet m around
    rw [show execute (n + 1) d m = _ from failed] at back
    exact ⟨d, mem, name, v, m₁, rfl, ⟨n, d, rfl, rfl, declared, first⟩,
      back.scope.trans entered.scope, back.globals.trans entered.globals, bound, failed⟩

theorem define_elsewhere (code : Realm.clocked.Code (.stmts r.program))
    (here : Realm.clocked.Holds r.machine.heap) (idle : r.machine.scope = r.machine.globals)
    (path : r.Path (a :: around)) {name : Token} {v : Value} {m : Machine}
    (defines : a.Defines name v m) (elsewhere : around ≠ [] ∨ m.scope ≠ m.globals) :
    Run.define name v m = .ok () { m with heap := m.heap.write m.scope name.lexeme v } := by
  refine defines.defined (Bool.eq_false_iff.mpr fun refused => ?_)
  obtain ⟨d, -, name', v', m', -, defines', scope, globals, -, -⟩ :=
    path.refused_defines code here refused
  cases defines.machine_eq defines'
  rcases elsewhere with inside | apart
  · exact inside (path.refused_first code here refused)
  · exact apart (scope.trans (idle.trans globals.symm))

end Episode.Path

theorem Evaluator.runTopLevel_refused {ev : Evaluator} {program : List Stmt} {m : Machine}
    (refused : refuses (runTopLevel ev program m) = true) :
    ∃ s m₁ halt m', ComesTo (fun ev => runTopLevel ev program) ev m (.stmt s) m₁ ∧
      ev.exec s m₁ = .error halt m' ∧ runTopLevel ev program m = .error halt m' := by
  induction program generalizing m with
  | nil => cases refused
  | cons s program ih =>
    cases first : ev.exec s m with
    | error halt m' =>
      exact ⟨s, m, halt, m', .bind (.task (.stmt s)), first, Run.bind_of_error first⟩
    | ok flow m₁ =>
      have whole : runTopLevel ev (s :: program) m = _ := Run.bind_of_ok first
      rw [whole] at refused ⊢
      cases flow with
      | returned _ | broke => cases refused
      | normal =>
        obtain ⟨s', m₂, halt, m', comes, failed, same⟩ := ih refused
        exact ⟨s', m₂, halt, m', .bind_ok (.exec s) first comes, failed, same⟩

theorem Session.run_refused {s : Session} {source : List UInt8} {prepared : Prepared (List Stmt)}
    {fuel : Nat} (prepares : prepareProgram s.nextId source = .ok prepared) {x : String}
    {line : Nat} (failed : (s.run fuel source).1 = .failed [.runtime (.redefined x) line]) :
    ∃ a d m, (s.episode fuel prepared).Path [a] ∧ a.task = .stmt d ∧
      execute a.fuel d a.machine = .error (.error (.runtime (.redefined x) line)) m := by
  rw [run_eq fuel prepares] at failed
  have ended : ∃ m, (s.episode fuel prepared).result =
      .error (.error (.runtime (.redefined x) line)) m := by
    cases result : (s.episode fuel prepared).result with
    | ok _ m =>
      rw [result] at failed
      dsimp only at failed
      split at failed <;> cases failed
    | error halt m =>
      rw [result] at failed
      cases halt with
      | outOfFuel => cases failed
      | error e =>
        dsimp only at failed
        split at failed <;> cases failed
        exact ⟨m, rfl⟩
  obtain ⟨m, ended⟩ := ended
  have refused : refuses (s.episode fuel prepared).result = true := by
    rw [ended]
    rfl
  obtain ⟨d, m₁, halt, m', comes, first, same⟩ := Evaluator.runTopLevel_refused refused
  have same := ended.symm.trans same
  cases same
  exact ⟨⟨fuel, .stmt d, m₁⟩, d, m, .first ⟨rfl, comes⟩, rfl, first⟩

theorem Proceeds.within {α : Type} {R : Realm} (quiet : R.Quiet) {x : Evaluator → Run α}
    {ev : Evaluator} {m m₁ m₂ : Machine} (proceeds : Proceeds x ev m m₁ m₂)
    (answers : Evaluator.Lawful R ev ev)
    (lawful : ∀ ev', Evaluator.Lawful R ev ev' → Run.Lawful R (x ev) (x ev'))
    (here : R.Holds m.heap) : R.Holds m₁.heap ∧ R.Holds m₂.heap := by
  have ends := (lawful ev answers).holds m here
  have answered {t : Task} {m' : Machine} (comes : ComesTo x ev m t m') :
      R.Holds (machineOf (ev.answer t m')).heap := by
    obtain ⟨task, holds⟩ := comes.within quiet answers lawful here
    exact (answers.answers t task).holds m' holds
  cases proceeds with
  | whole => exact ⟨here, ends⟩
  | into comes => exact ⟨here, (comes.within quiet answers lawful here).2⟩
  | next first second _ => exact ⟨answered first, (second.within quiet answers lawful here).2⟩
  | out comes => exact ⟨answered comes, ends⟩

theorem Moment.Within.within {R : Realm} (quiet : R.Quiet) {a b : Moment} (inside : a.Within b)
    (task : R.Task b.task) (here : R.Holds b.machine.heap) :
    R.Task a.task ∧ R.Holds a.machine.heap := by
  induction inside using Relation.ReflTransGen.head_induction_on with
  | refl => exact ⟨task, here⟩
  | @head a c part _ ih =>
    have lawful := Evaluator.lawful_withFuel R a.fuel
    exact part.2.within quiet lawful (fun _ both => both.rule ih.1) ih.2

theorem Moment.Within.refuses {a b : Moment} (inside : a.Within b)
    (refused : refuses a.result = true) : Quill.refuses b.result = true := by
  induction inside using Relation.ReflTransGen.head_induction_on with
  | refl => exact refused
  | head part _ ih => exact ih (part.refuses refused)

namespace Session

variable {s : Session}

theorem Passes.clocked {m₁ m₂ : Machine} (passes : s.Passes m₁ m₂)
    (here : Realm.clocked.Holds s.machine.heap) :
    Realm.clocked.Holds m₁.heap ∧ Realm.clocked.Holds m₂.heap := by
  cases passes with
  | @program source prepared fuel prepares passes =>
    have code : Realm.clocked.Code (.stmts prepared.tree) := prepareProgram_distinct _ prepares
    rcases passes with proceeds | ⟨n, t, m, around, path, proceeds⟩
    · exact proceeds.within Realm.clocked_quiet (Evaluator.lawful_withFuel .clocked fuel)
        (fun _ both => both.runTopLevel code) here
    · obtain ⟨task, holds⟩ := path.within Realm.clocked_quiet code here
      exact proceeds.within Realm.clocked_quiet (Evaluator.lawful_withFuel .clocked n)
        (fun _ both => both.rule task) holds
  | @expression source prepared fuel n t m prepares inside proceeds =>
    have code : Realm.clocked.Code (.expr prepared.tree) := prepareExpression_distinct _ prepares
    obtain ⟨task, holds⟩ := inside.within Realm.clocked_quiet code here
    exact proceeds.within Realm.clocked_quiet (Evaluator.lawful_withFuel .clocked n)
      (fun _ both => both.rule task) holds

theorem Shows.clocked {m : Machine} (shows : s.Shows m)
    (here : Realm.clocked.Holds s.machine.heap) : Realm.clocked.Holds m.heap := by
  rcases shows with rfl | ⟨m', passes | passes⟩
  · exact here
  · exact (passes.clocked here).1
  · exact (passes.clocked here).2

end Session

theorem refuses_of_outcomeOf {α : Type} {result : EStateM.Result Halt Machine α} {x : String}
    {line : Nat} (failed : outcomeOf result = .failed [.runtime (.redefined x) line]) :
    refuses result = true := by
  cases result with
  | ok _ _ => cases failed
  | error halt _ =>
    cases halt with
    | outOfFuel => cases failed
    | error e =>
      cases failed
      rfl

structure Machine.Fills (m : Machine) : Prop where
  call : ∀ (id : FunctionId) closure, m.heap.closures[id]? = some closure →
    ∀ arguments, ∃ vars, Evaluator.bindParams closure.code.params arguments {} = .ok vars
  method : ∀ (id : FunctionId) closure, m.heap.closures[id]? = some closure →
    ∀ i, ∃ bound m', Evaluator.bindMethod id i m = .ok bound m'
  superclass : ∀ parent, ∃ scope m', Evaluator.methodScope parent m = .ok scope m'

theorem Machine.fills {m : Machine} (here : Realm.clocked.Holds m.heap) : m.Fills := by
  refine ⟨fun id closure found arguments => ?_, fun id closure found i => ?_, fun parent => ?_⟩
  · have names := Realm.clocked_distinct.callee (here.closures id closure found)
    have nodup := (List.nodup_append.mp names).1
    exact (Evaluator.bindParams_distinct nodup fun _ _ => rfl).imp fun vars bound => bound.1
  · have read : Run.object (·.closures[id]?) m = .ok closure m := by
      unfold Run.object
      simp only [found]
    exact ⟨_, _, Run.bind_of_ok read⟩
  · cases parent <;> exact ⟨_, _, rfl⟩

/-- No name is refused but that of a declaration at the top, which is bound in the globals already.
All other declarations bind their names, and all scopes of calls, bound methods and subclasses can
be filled, at every moment of every run. -/
theorem redefinition_only_at_top {s : Session} (used : s.Used Native.Discreet)
    (natives : s.machine.heap.natives = #[.clock]) :
    (∀ (source : List UInt8) (prepared : Prepared (List Stmt)) (fuel : Nat),
      prepareProgram s.nextId source = .ok prepared →
      (∀ (a : Moment) (around : List Moment), (s.episode fuel prepared).Path (a :: around) →
        refuses a.result = true →
        around = [] ∧ ∃ d ∈ prepared.tree, ∃ name v m, a.task = .stmt d ∧ a.Defines name v m ∧
          m.scope = m.globals ∧ m.heap.Binds m.globals name.lexeme ∧ execute a.fuel d a.machine =
            .error (.error (.runtime (.redefined name.lexeme) name.line)) m) ∧
      (∀ (a : Moment) (around : List Moment) (name : Token) (v : Value) (m : Machine),
        (s.episode fuel prepared).Path (a :: around) → a.Defines name v m →
        around ≠ [] ∨ m.scope ≠ m.globals →
        Run.define name v m = .ok () { m with heap := m.heap.write m.scope name.lexeme v }) ∧
      ∀ (x : String) (line : Nat), (s.run fuel source).1 = .failed [.runtime (.redefined x) line] →
        ∃ a : Moment, (s.episode fuel prepared).Path [a] ∧ refuses a.result = true) ∧
    (∀ (source : List UInt8) (prepared : Prepared Expr) (fuel : Nat),
      prepareExpression s.nextId source = .ok prepared →
      (∀ a : Moment,
        a.Within ⟨fuel, .expr prepared.tree, s.machine.withTable (s.tableFor prepared)⟩ →
        refuses a.result = false ∧ ∀ name v m, a.Defines name v m →
          Run.define name v m = .ok () { m with heap := m.heap.write m.scope name.lexeme v }) ∧
      ∀ (x : String) (line : Nat),
        (s.evaluate fuel source).1 ≠ .failed [.runtime (.redefined x) line]) ∧
    ∀ m, s.Shows m → m.Fills := by
  have here := used.clocked natives
  have idle : s.machine.scope = s.machine.globals :=
    used.idle_of_discreet.scope.trans used.idle_of_discreet.globals.symm
  refine ⟨fun source prepared fuel prepares => ?_, fun source prepared fuel prepares => ?_,
    fun m shows => Machine.fills (shows.clocked here)⟩
  · have code : Realm.clocked.Code (.stmts prepared.tree) := prepareProgram_distinct _ prepares
    refine ⟨fun a around path refused => ?_, fun a around name v m path defines elsewhere => ?_,
      fun x line failed => ?_⟩
    · obtain ⟨d, mem, name, v, m, task, defines, scope, globals, bound, failed⟩ :=
        path.refused_defines code here refused
      have top : m.scope = m.globals := scope.trans (idle.trans globals.symm)
      exact ⟨path.refused_first code here refused, d, mem, name, v, m, task, defines, top,
        top ▸ bound, failed⟩
    · exact path.define_elsewhere code here idle defines elsewhere
    · obtain ⟨⟨n, t, m₀⟩, d, m, path, rfl, failed⟩ := Session.run_refused prepares failed
      refine ⟨_, path, ?_⟩
      rw [show Moment.result ⟨n, .stmt d, m₀⟩ = _ from failed]
      rfl
  · have code : Realm.clocked.Code (.expr prepared.tree) := prepareExpression_distinct _ prepares
    -- An expression declares nothing, so neither does it fail that way, nor any part of it.
    have fine : refuses (Quill.evaluate fuel prepared.tree
        (s.machine.withTable (s.tableFor prepared))) = false := by
      have confined := Evaluator.confined_withFuel Realm.clocked_quiet fuel
      have silent := confined.eval code (s.machine.withTable (s.tableFor prepared)) here
      exact silent.distinct Realm.clocked_distinct (Heap.free_nil _ _)
    refine ⟨fun a inside => ?_, fun x line failed => ?_⟩
    · have fine' : refuses a.result = false := Bool.eq_false_iff.mpr fun refused =>
        Bool.noConfusion (fine.symm.trans (inside.refuses refused))
      exact ⟨fine', fun name v m defines => defines.defined fine'⟩
    · unfold Session.evaluate at failed
      rw [prepares] at failed
      dsimp only at failed
      rw [Session.perform_eq] at failed
      exact Bool.noConfusion (fine.symm.trans (refuses_of_outcomeOf failed))

def declaringLoop : List UInt8 :=
  "while (true) { var a; }".toUTF8.data.toList

def declaredTwice : List UInt8 :=
  "var a; var a;".toUTF8.data.toList

theorem redefinition_only_at_top_rounds :
    (∃ prepared, prepareProgram 0 declaringLoop = .ok prepared ∧
      ∀ (fuel : Nat) (a : Moment) (around : List Moment),
        ((Session.start .unlimited 0).episode fuel prepared).Path (a :: around) →
        refuses a.result = false) ∧
    ∃ prepared a, prepareProgram 0 declaredTwice = .ok prepared ∧
      ((Session.start .unlimited 0).episode 2 prepared).Path [a] ∧ refuses a.result = true := by
  have used : (Session.start .unlimited 0).Used Native.Discreet := .start .unlimited 0
  obtain ⟨programs, -, -⟩ := redefinition_only_at_top used rfl
  let body : Stmt := .block [.var (nameToken "a") none]
  let looping : Prepared (List Stmt) := ⟨[.loop (.literal (.boolean true)) body], {}, 0⟩
  let declaration : Stmt := .var (nameToken "a") none
  let twice : Prepared (List Stmt) := ⟨[declaration, declaration], {}, 0⟩
  have prepares : prepareProgram 0 declaringLoop = .ok looping := by cbv
  have prepares' : prepareProgram 0 declaredTwice = .ok twice := by cbv
  refine ⟨⟨looping, prepares, fun fuel a around path => ?_⟩, twice, ?_⟩
  · obtain ⟨refused, -, -⟩ := programs declaringLoop looping fuel prepares
    refine Bool.eq_false_iff.mpr fun again => ?_
    obtain ⟨-, d, mem, name, v, m, task, ⟨n, d', -, task', declared, -⟩, -⟩ :=
      refused a around path again
    rw [task] at task'
    cases task'
    cases List.mem_singleton.mp mem
    cases declared
  · obtain ⟨-, -, ends⟩ := programs declaredTwice twice 2 prepares'
    have failed : ((Session.start .unlimited 0).run 2 declaredTwice).1 =
        .failed [.runtime (.redefined "a") 1] := by cbv
    obtain ⟨a, path, refused⟩ := ends "a" 1 failed
    exact ⟨a, prepares', path, refused⟩

end Quill
