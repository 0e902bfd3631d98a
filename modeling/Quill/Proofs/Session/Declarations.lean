import Quill.Proofs.Evaluator.Declaring
import Quill.Proofs.Session.Registers

set_option autoImplicit false

namespace Quill

theorem Stmt.declarations_of_silent :
    (s : Stmt) → s.WellFormed → s.declares = false → s.declarations = []
  | .expression _, _, _ | .print _, _, _ | .block _, _, _ | .breakLoop _, _, _
  | .returnFrom .., _, _ => rfl
  | .var .., _, silent | .function _, _, silent | .classDecl .., _, silent => by cases silent
  | .loop _ body, wf, _ => body.declarations_of_silent wf.2.1 wf.2.2
  | .conditional _ thenBranch none, wf, _ => thenBranch.declarations_of_silent wf.2.1 wf.2.2
  | .conditional _ thenBranch (some elseBranch), wf, _ => by
    have first := thenBranch.declarations_of_silent wf.2.1.1 wf.2.1.2
    have second := elseBranch.declarations_of_silent wf.2.2.1 wf.2.2.2
    rw [declarations, first, second]
    rfl

theorem Stmt.names_of_wellFormed {s : Stmt} (wf : s.WellFormed) :
    s.names = s.declared?.toList.map Token.lexeme := by
  cases silent : s.declares with
  | true => cases s <;> first | rfl | cases silent
  | false =>
    have none : s.declared? = none := by cases s <;> first | rfl | cases silent
    rw [names, s.declarations_of_silent wf silent, none]
    rfl

/-- As long as no function of the host adds a name to a scope by itself, whatever it calls, evaluates
and executes, no scope loses a name when a statement is executed, whatever comes of it, and none that
was there before gains one but the scope it is executed in, and only names declared there; these are
bound if it ends normally. Evaluating an expression adds no name to any scope that was there before. -/
theorem declarations_stay_in_scope :
    (∀ (fuel : Nat) (s : Stmt) (m : Machine), m.heap.Hosts Deed.Reticent →
      (∀ t x, m.heap.Binds t x → (machineOf (execute fuel s m)).heap.Binds t x) ∧
      (∀ t x, t < m.heap.scopes.size → (machineOf (execute fuel s m)).heap.Binds t x →
        ¬ m.heap.Binds t x → t = m.scope ∧ x ∈ s.names) ∧
      (s.WellFormed → s.names = s.declared?.toList.map Token.lexeme) ∧
      ∀ flow m' name, execute fuel s m = .ok flow m' → s.declared? = some name →
        m.scope < m.heap.scopes.size → m'.heap.Binds m.scope name.lexeme) ∧
    ∀ (fuel : Nat) (e : Expr) (m : Machine), m.heap.Hosts Deed.Reticent → ∀ (t : ScopeId)
      (x : String), t < m.heap.scopes.size →
      ((machineOf (evaluate fuel e m)).heap.Binds t x ↔ m.heap.Binds t x) := by
  refine ⟨fun fuel s m hosts => ?_, fun fuel e m hosts t x old => ?_⟩
  · have here := Region.reticent_holds hosts
    have frames := ((Evaluator.reticent_withFuel fuel).exec (s := s) trivial m here).frames
    refine ⟨frames.keeps, fun t x old binds new => ?_, Stmt.names_of_wellFormed,
      fun flow m' name done declared exist =>
        Evaluator.exec_binds Evaluator.reticent_withFuel trivial here declared exist done⟩
    exact (frames.adds t x old binds).resolve_left new
  · have confined := Evaluator.reticent_withFuel fuel
    exact (confined.eval (e := e) trivial m (Region.reticent_holds hosts)).frames.binds_iff old x

def declaringX : Stmt :=
  .var (nameToken "x") none

def Native.executing (s : Stmt) : Native where
  name := "host"
  arity := 0
  respond _ _ := .act (.execute s fun _ => .done (.ok .nil))

theorem Native.executing_reticent {s : Stmt} (silent : s.names = []) :
    (Native.executing s).Within Deed.Reticent := by
  rintro _ _ _ ⟨⟩
  exact ⟨silent, fun _ => trivial⟩

def functionDeclared : Machine :=
  machineOf (execute 1 (.function ⟨some (nameToken "f"), [], [declaringX]⟩)
    (.hosting (.executing (.block [declaringX]))))

theorem declarations_stay_in_scope_function :
    (∃ m, evaluate 2 (callingHost "f") functionDeclared = .ok .nil m ∧
      m.heap.value? 1 "x" = some .nil ∧
      ∀ x, m.heap.Binds 0 x ↔ functionDeclared.heap.Binds 0 x) ∧
    (∃ m, evaluate 4 (callingHost "host") functionDeclared = .ok .nil m ∧
      m.heap.value? 1 "x" = some .nil ∧
      ∀ x, m.heap.Binds 0 x ↔ functionDeclared.heap.Binds 0 x) ∧
    ∃ m, execute 1 declaringX functionDeclared = .ok .normal m ∧
      ∀ x, m.heap.Binds 0 x ↔ functionDeclared.heap.Binds 0 x ∨ x = "x" := by
  have exist : 0 < functionDeclared.heap.scopes.size := by cbv
  have scope : functionDeclared.scope = 0 := by cbv
  have hosts : functionDeclared.heap.Hosts Deed.Reticent := by
    have clock := (Heap.discreet_of_clock rfl : (Machine.start .unlimited 0).heap.Discreet)
    exact (clock.hosts _).addNative (Native.executing_reticent rfl)
  obtain ⟨executed, evaluated⟩ := declarations_stay_in_scope
  have called : evaluate 2 (callingHost "f") functionDeclared =
      .ok .nil (machineOf (evaluate 2 (callingHost "f") functionDeclared)) := by cbv
  have asked : evaluate 4 (callingHost "host") functionDeclared =
      .ok .nil (machineOf (evaluate 4 (callingHost "host") functionDeclared)) := by cbv
  refine ⟨⟨_, called, by cbv, fun x => ?_⟩, ⟨_, asked, by cbv, fun x => ?_⟩, ⟨_, rfl, fun x => ?_⟩⟩
  · exact evaluated 2 _ functionDeclared hosts 0 x exist
  · exact evaluated 4 _ functionDeclared hosts 0 x exist
  · obtain ⟨keeps, adds, names, binds⟩ := executed 1 declaringX functionDeclared hosts
    constructor
    · intro bound
      by_cases old : functionDeclared.heap.Binds 0 x
      · exact .inl old
      · have mem := (adds 0 x exist bound old).2
        rw [names ⟨by decide, by decide⟩] at mem
        exact .inr (List.mem_singleton.mp mem)
    · rintro (old | rfl)
      · exact keeps 0 x old
      · exact scope ▸ binds _ _ (nameToken "x") rfl rfl (scope ▸ exist)

/-- A call of a function of the host that executes `var x;` adds a name to the globals. -/
theorem declarations_leave_scope_host :
    ∃ m, evaluate 4 (callingHost "host") (.hosting (.executing declaringX)) = .ok .nil m ∧
      0 < (Machine.hosting (.executing declaringX)).heap.scopes.size ∧
      ¬ (Machine.hosting (.executing declaringX)).heap.Binds 0 "x" ∧ m.heap.Binds 0 "x" := by
  have called : evaluate 4 (callingHost "host") (.hosting (.executing declaringX)) =
      .ok .nil (machineOf (evaluate 4 (callingHost "host") (.hosting (.executing declaringX)))) := by
    cbv
  have unbound : (Machine.hosting (.executing declaringX)).heap.value? 0 "x" = none := by cbv
  refine ⟨_, called, by cbv, ?_, .nil, by cbv⟩
  rintro ⟨v, found⟩
  rw [unbound] at found
  cases found

namespace Session

theorem run_gains {s : Session} (discreet : s.machine.heap.Discreet) (fuel : Nat)
    (source : List UInt8) :
    ∃ names, s.machine.heap.Gains s.machine.scope names (s.run fuel source).2.machine.heap := by
  cases prepares : prepareProgram s.nextId source with
  | error errors =>
    rw [run_rejected fuel prepares, discard_machine]
    exact ⟨[], .refl _ _ _⟩
  | ok prepared =>
    have confined := Evaluator.confined_withFuel Realm.whole_quiet fuel
    have declares : Run.Confined Realm.whole.toRegion (namesOf prepared.tree)
        (runTopLevel (.withFuel fuel) prepared.tree) :=
      confined.runTopLevel trivial fun distinct => (Realm.whole_not_distinct distinct).elim
    have gains := (declares (s.machine.withTable (s.tableFor prepared))
      (Realm.whole_holds discreet)).gains Realm.whole_quiet
    refine ⟨namesOf prepared.tree, ?_⟩
    rw [run_prepared fuel prepares, perform_eq]
    dsimp only
    rw [machineOf_interpret]
    exact gains

theorem evaluate_gains {s : Session} (discreet : s.machine.heap.Discreet) (fuel : Nat)
    (source : List UInt8) :
    s.machine.heap.Gains s.machine.scope [] (s.evaluate fuel source).2.machine.heap := by
  cases prepares : prepareExpression s.nextId source with
  | error errors =>
    rw [evaluate_rejected fuel prepares, discard_machine]
    exact .refl _ _ _
  | ok prepared =>
    have confined := Evaluator.confined_withFuel Realm.whole_quiet fuel
    have gains := (confined.eval (e := prepared.tree) trivial
      (s.machine.withTable (s.tableFor prepared)) (Realm.whole_holds discreet)).gains
    rw [evaluate_prepared fuel prepares, perform_eq]
    exact gains Realm.whole_quiet

theorem Used.rooted {s : Session} (used : s.Used Native.Discreet) : 0 < s.machine.heap.scopes.size := by
  induction used with
  | start => exact Nat.zero_lt_one
  | limited _ _ ih => exact ih
  | extended _ _ added ih =>
    obtain ⟨heap, rfl, rfl⟩ := addNative_ok added
    simpa [Heap.write, Heap.addNative] using ih
  | ran fuel source used ih =>
    obtain ⟨names, gains⟩ := run_gains used.discreet fuel source
    exact Nat.lt_of_lt_of_le ih gains.scopes
  | evaluated fuel source used ih =>
    exact Nat.lt_of_lt_of_le ih (evaluate_gains used.discreet fuel source).scopes

end Session

theorem WellFormedStmts.mem {body : List Stmt} (wf : WellFormedStmts body) {s : Stmt}
    (mem : s ∈ body) : s.WellFormed := by
  induction body with
  | nil => cases mem
  | cons s' body ih =>
    rcases List.mem_cons.mp mem with rfl | mem
    · exact wf.1
    · exact ih wf.2 mem

/-- A declaration at the top that fails ends the run, and leaves the globals with the names they had
before, except for the name of a class with a superclass: that stays bound, to `nil` if it was not
bound before. So the name can be declared again if it was not bound before and was not left so. -/
theorem failed_declaration_names {s : Session} (used : s.Used Native.Discreet) {source : List UInt8}
    {prepared : Prepared (List Stmt)} (prepares : prepareProgram s.nextId source = .ok prepared)
    {fuel : Nat} {a : Moment} (path : (s.episode fuel prepared).Path [a]) {d : Stmt}
    (task : a.task = .stmt d) {name : Token} (declared : d.declared? = some name) {e : Error}
    {m : Machine} (failed : execute a.fuel d a.machine = .error (.error e) m) :
    (s.run fuel source).2.machine = m ∧ m.globals = a.machine.globals ∧
    (∀ x, m.heap.Binds m.globals x ↔
      a.machine.heap.Binds m.globals x ∨ d.inherits = true ∧ x = name.lexeme) ∧
    (d.inherits = true → ¬ a.machine.heap.Binds m.globals name.lexeme →
      m.heap.value? m.globals name.lexeme = some .nil) ∧
    ∀ line, m.heap.definable m.globals name.lexeme line = .ok () ↔
      ¬ a.machine.heap.Binds m.globals name.lexeme ∧ d.inherits = false := by
  have idle := used.idle_of_discreet
  cases path with
  | first comes =>
    obtain ⟨d', mem, task', here, entered, le, ends⟩ := comes.stmt used.discreet
    rw [task] at task'
    cases task'
    have wf : d.WellFormed := (prepareProgram_accepted prepares).wellFormed.mem mem
    have whole := (execute_lawful (R := .whole) (s := d) trivial a.fuel).restored Realm.whole_quiet
      a.machine here
    rw [failed] at whole
    have globals : m.globals = a.machine.globals := whole.globals
    -- At the top of a run the current scope is the global one.
    have scope : a.machine.scope = m.globals := by
      rw [globals, entered.scope, entered.globals]
      exact idle.scope.trans idle.globals.symm
    have exist : a.machine.scope < a.machine.heap.scopes.size := by
      rw [entered.scope, show (s.episode fuel prepared).machine.scope = 0 from idle.scope]
      exact Nat.lt_of_lt_of_le used.rooted le
    obtain ⟨names, value⟩ := Evaluator.exec_fails
      (Evaluator.confined_withFuel Realm.whole_quiet) trivial here declared exist wf failed
    rw [scope] at names value
    refine ⟨?_, globals, names, value, fun line => ?_⟩
    · rw [Session.run_eq fuel prepares, ends _ _ failed]
    · rw [Heap.definable_iff, names]
      simp

def undefinedSuperclass : List UInt8 :=
  "class A < B {}".toUTF8.data.toList

theorem failed_declaration_names_undefinedSuperclass :
    ∃ m, ((Session.start .unlimited 0).run 2 undefinedSuperclass).2.machine = m ∧
      ¬ (Machine.start .unlimited 0).heap.Binds 0 "A" ∧ m.heap.value? 0 "A" = some .nil ∧
      ∀ line, m.heap.definable 0 "A" line ≠ .ok () := by
  let d : Stmt := .classDecl (nameToken "A") (some (.variable 0 (nameToken "B"))) []
  let prepared : Prepared (List Stmt) := ⟨[d], {}, 1⟩
  let start := ((Session.start .unlimited 0).episode 2 prepared).machine
  have prepares : prepareProgram 0 undefinedSuperclass = .ok prepared := by cbv
  let left : Machine := { start with heap := start.heap.write 0 "A" .nil }
  have failed :
      execute 2 (.classDecl (nameToken "A") (some (.variable 0 (nameToken "B"))) []) start =
        .error (.error (.runtime (.undefinedVariable "B") 1)) left := by cbv
  have unbound : ¬ start.heap.Binds 0 "A" := by
    rintro ⟨v, found⟩
    cases found
  have path : ((Session.start .unlimited 0).episode 2 prepared).Path [⟨2, .stmt d, start⟩] :=
    .first ⟨rfl, .bind (.task (.stmt d))⟩
  obtain ⟨machine, -, -, value, again⟩ :=
    failed_declaration_names (.start .unlimited 0) prepares path rfl rfl failed
  refine ⟨left, machine, unbound, value rfl unbound, fun line definable => ?_⟩
  cases ((again line).mp definable).2

end Quill
