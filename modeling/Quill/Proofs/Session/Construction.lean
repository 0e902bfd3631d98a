import Quill.Proofs.Evaluator.Initializers
import Quill.Proofs.Session.ControlFlow
import Quill.Proofs.Session.Declarations
import Quill.Proofs.Session.Objects

set_option autoImplicit false

namespace Quill

open Relation (ReflTransGen)

namespace Moment

variable {a b : Moment}

theorem Part.labelled (part : a.Part b) (wf : b.task.WellFormed) (tidy : b.machine.heap.Tidy)
    (labelled : b.machine.heap.Labelled) : a.machine.heap.Labelled := by
  have within : Realm.whole.Task b.task := by
    cases own : b.task with
    | act => exact (own ▸ wf).own
    | _ => trivial
  have gains := part.2.gains (.rule wf.own) wf (Evaluator.orderly_withFuel a.fuel) tidy
    (Evaluator.confined_withFuel Realm.whole_quiet a.fuel) fun _ confined =>
      confined.rule (fun _ act => act.elim) within
  exact gains.labelled labelled

structure Sound (h : Heap) (a : Moment) : Prop extends a.Secure h where
  labelled : a.machine.heap.Labelled

theorem Part.sound {h : Heap} (part : a.Part b) (sound : b.Sound h) : a.Sound h :=
  ⟨part.secure sound.toSecure, part.labelled sound.wellFormed sound.tidy sound.labelled⟩

theorem Within.sound {h : Heap} (within : a.Within b) (sound : b.Sound h) : a.Sound h := by
  induction within using ReflTransGen.head_induction_on with
  | refl => exact sound
  | head part _ ih => exact part.sound ih

end Moment

theorem Episode.Path.sound {r : Episode} {a : Moment} {around : List Moment}
    (path : r.Path (a :: around)) (wf : WellFormedStmts r.program) (tidy : r.machine.heap.Tidy)
    (intact : r.machine.Intact) (labelled : r.machine.heap.Labelled) : a.Sound r.machine.heap := by
  generalize same : a :: around = whole at path
  induction path generalizing a around with
  | @first a comes =>
    cases same
    have gains := comes.2.gains (.runTopLevel r.program) wf (Evaluator.orderly_withFuel r.fuel) tidy
      (Evaluator.confined_withFuel Realm.whole_quiet r.fuel) fun _ confined =>
        confined.runTopLevel trivial fun distinct =>
          (Realm.whole_not_distinct distinct).elim
    exact ⟨(Path.first comes).secure wf tidy intact, gains.labelled labelled⟩
  | part _ part ih =>
    cases same
    exact part.sound (ih rfl)

namespace Session

variable {s s' : Session}

/-- While the next source is run or evaluated, it comes to a moment. -/
inductive Meets (s : Session) (a : Moment) : Prop where
  | program {source : List UInt8} {prepared : Prepared (List Stmt)} {fuel : Nat}
      {around : List Moment} : prepareProgram s.nextId source = .ok prepared →
      (s.episode fuel prepared).Path (a :: around) → Meets s a
  | expression {source : List UInt8} {prepared : Prepared Expr} {fuel : Nat} :
      prepareExpression s.nextId source = .ok prepared →
      a.Within ⟨fuel, .expr prepared.tree, s.machine.withTable (s.tableFor prepared)⟩ → Meets s a

theorem Meets.sound {a : Moment} (meets : s.Meets a) (secure : s.Secure)
    (labelled : s.machine.heap.Labelled) : a.Sound s.machine.heap := by
  obtain ⟨⟨heap, scope⟩, tidy⟩ := secure
  cases meets with
  | program prepares path =>
    exact path.sound (prepareProgram_accepted prepares).wellFormed tidy ⟨heap, scope⟩ labelled
  | @expression _ prepared fuel prepares within =>
    have wf := prepareExpression_wellFormed prepares
    exact within.sound ⟨⟨⟨heap, scope⟩, trivial, wf, tidy, .refl _⟩, labelled⟩

theorem Step.labelled (step : s.Step s') (discreet : s.machine.heap.Discreet)
    (labelled : s.machine.heap.Labelled) : s'.machine.heap.Labelled := by
  cases step with
  | limited depth => exact labelled
  | extended honest added =>
    obtain ⟨heap, rfl, rfl⟩ := addNative_ok added
    exact labelled
  | ran fuel source =>
    obtain ⟨names, gains⟩ := run_gains discreet fuel source
    exact gains.labelled labelled
  | evaluated fuel source => exact (evaluate_gains discreet fuel source).labelled labelled

theorem labelled_of_steps (steps : ReflTransGen Step s s') (secure : s.Secure)
    (labelled : s.machine.heap.Labelled) : s'.machine.heap.Labelled := by
  induction steps with
  | refl => exact labelled
  | tail before step ih => exact step.labelled (secure_of_steps before secure).1.tidy.2 ih

theorem addNative_unbound {native : Native} (added : s.addNative native = .ok s') :
    ¬ s.machine.heap.Binds s.machine.globals native.name := by
  unfold addNative Heap.define at added
  dsimp only at added
  cases free : (s.machine.heap.addNative native).definable s.machine.globals native.name 0 with
  | error e =>
    rw [free] at added
    cases added
  | ok => exact ((s.machine.heap.addNative native).definable_iff ..).mp free

theorem Step.initializes (step : s.Step s') (secure : s.Secure) {f : FunctionId} {i : InstanceId}
    (bound : s.machine.heap.Initializes f i) : s'.machine.heap.Initializes f i := by
  have tidy := secure.tidy
  cases step with
  | limited depth => exact bound
  | @extended _ native _ added =>
    -- A function of the host cannot be called `this` where that is bound.
    have free := addNative_unbound added
    obtain ⟨heap, rfl, rfl⟩ := addNative_ok added
    obtain ⟨closure, found, kind, this⟩ := bound
    refine ⟨closure, found, kind, ?_⟩
    change ((s.machine.heap.addNative native).write _ _ _).value? closure.scope "this" = _
    rw [Heap.value?_write, if_neg]
    · exact this
    · rintro ⟨same, name, -⟩
      exact free ⟨_, same ▸ name ▸ this⟩
  | ran fuel source =>
    cases prepares : prepareProgram s.nextId source with
    | error errors =>
      rw [run_rejected fuel prepares, discard_machine]
      exact bound
    | ok prepared =>
      have passes : (s.episode fuel prepared).Passes _ _ := .inl .whole
      have becomes := passes.becomes (prepareProgram_accepted prepares).wellFormed tidy
      rw [run_prepared fuel prepares, perform_eq]
      dsimp only
      rw [machineOf_interpret]
      exact becomes.grows.initializes bound
  | evaluated fuel source =>
    cases prepares : prepareExpression s.nextId source with
    | error errors =>
      rw [evaluate_rejected fuel prepares, discard_machine]
      exact bound
    | ok prepared =>
      have becomes := Evaluator.orderly_withFuel fuel (.expr prepared.tree)
        (prepareExpression_wellFormed prepares) (s.machine.withTable (s.tableFor prepared)) tidy
      rw [evaluate_prepared fuel prepares, perform_eq]
      exact becomes.grows.initializes bound

theorem initializes_of_steps (steps : ReflTransGen Step s s') (secure : s.Secure) {f : FunctionId}
    {i : InstanceId} (bound : s.machine.heap.Initializes f i) :
    s'.machine.heap.Initializes f i := by
  induction steps with
  | refl => exact bound
  | tail before step ih => exact step.initializes (secure_of_steps before secure).1 ih

theorem Passes.grows {m₁ m₂ : Machine} (passes : s.Passes m₁ m₂) (secure : s.Secure) :
    m₁.heap.Grows m₂.heap := by
  obtain ⟨⟨heap, scope⟩, tidy⟩ := secure
  cases passes with
  | program prepares passes =>
    exact (passes.becomes (prepareProgram_accepted prepares).wellFormed tidy).grows
  | @expression _ prepared fuel n t m prepares within proceeds =>
    have wf := prepareExpression_wellFormed prepares
    have there : Moment.Secure s.machine.heap ⟨n + 1, t, m⟩ :=
      within.secure ⟨⟨heap, scope⟩, trivial, wf, tidy, .refl _⟩
    have becomes :=
      proceeds.becomes (.rule there.wellFormed.own) there.wellFormed (Evaluator.orderly_withFuel n)
        there.tidy
    exact becomes.grows

end Session

namespace Moment

/-- Something is called with arguments, on the machine that is left once these are evaluated. -/
inductive Calls : Moment → Callable → List Value → Machine → Prop where
  | expression {n : Nat} {callee : Expr} {paren : Token} {es : List Expr} {m m₁ m₂ : Machine}
      {f : Value} {callable : Callable} {arguments : List Value} :
      (Evaluator.withFuel n).eval callee m = .ok f m₁ → f.callable? = some callable →
      (Evaluator.withFuel n).evalAll es [] m₁ = .ok arguments m₂ →
      Calls ⟨n + 1, .expr (.call callee paren es), m⟩ callable arguments m₂
  | host {n : Nat} {callable : Callable} {arguments : List Value} {line : Nat} {m : Machine} :
      Calls ⟨n + 1, .call callable arguments line, m⟩ callable arguments m

/-- An instance is asked for its initializer, as a property or through `super`. -/
inductive AsksInitializer : Moment → InstanceId → Prop where
  | property {n : Nat} {object : Expr} {name : Token} {m m₁ : Machine} {i : InstanceId} :
      name.lexeme = initializerName →
      (Evaluator.withFuel n).eval object m = .ok (.instanceRef i) m₁ →
      m₁.heap.field? i initializerName = none →
      AsksInitializer ⟨n + 1, .expr (.get object name), m⟩ i
  | super {n : Nat} {id : RefId} {keyword method : Token} {m : Machine} {c : ClassId}
      {i : InstanceId} : method.lexeme = initializerName →
      Evaluator.superBindings id keyword m = .ok (c, i) →
      AsksInitializer ⟨n + 1, .expr (.super id keyword method), m⟩ i

variable {a : Moment} {h : Heap} {callable : Callable} {arguments : List Value} {m m' : Machine}
  {v : Value}

theorem Calls.state (calls : a.Calls callable arguments m) (secure : a.Secure h) :
    m.Intact ∧ m.heap.Tidy := by
  obtain ⟨intact, known, wf, tidy, -⟩ := secure
  cases calls with
  | host => exact ⟨intact, tidy⟩
  | @expression n callee paren es m₀ m₁ m f callable arguments found fits given =>
    have answers := Evaluator.orderly_withFuel n
    have safe := Evaluator.secure_withFuel n
    -- The callee and the arguments are evaluated in this order, and each keeps the heap in order.
    have first := Dialogic.becomes (.eval callee) wf.1 answers tidy found
    have first' := (safe.eval callee m₀ intact (.refl _)).1.leaves.machine intact
    rw [found] at first'
    have rest := Dialogic.becomes (.evalAll es []) wf.2 answers first.tidy given
    have none : Heap.HoldsAll [] m₁.heap := fun _ mem => by cases mem
    have rest' := (safe.evalAll es none m₁ first' (.refl _)).1.leaves.machine first'
    rw [given] at rest'
    exact ⟨rest', rest.tidy⟩

theorem Calls.invoked (calls : a.Calls callable arguments m) (value : a.value? = some (.ok v m')) :
    ∃ n line m₁ m₂, (Evaluator.withFuel n).invokeRule callable arguments line m₁ = .ok v m₂ ∧
      m₁.heap = m.heap ∧ m'.heap = m₂.heap := by
  cases calls with
  | @host n _ _ line _ => exact ⟨n, line, m, m', Option.some.inj value, rfl, rfl⟩
  | @expression n callee paren es m₀ m₁ m f callable arguments found fits given =>
    have done := Option.some.inj value
    change (Evaluator.withFuel n).evalCall callee paren es m₀ = _ at done
    rw [Evaluator.evalCall_evaluated found fits given] at done
    -- The number of arguments fits, and the limit on the depth is not reached.
    split at done
    · unfold Run.oneDeeper at done
      dsimp only at done
      split at done
      · cases done
      · refine ⟨n, paren.line, { m with depth := m.depth + 1 }, ?_⟩
        split at done
        next v' m₂ result =>
          cases done
          exact ⟨m₂, result, rfl, rfl⟩
        next => cases done
    · cases done

theorem AsksInitializer.initializes {i : InstanceId} (asks : a.AsksInitializer i)
    (sound : a.Sound h) (value : a.value? = some (.ok v m')) :
    ∃ f, v = .function f ∧ m'.heap.Initializes f i := by
  have labelled := sound.labelled
  cases asks with
  | @property n object name m₀ m₁ i initializer found noField =>
    have gains := ((Evaluator.confined_withFuel Realm.whole_quiet n).eval (e := object) trivial m₀
      (Realm.whole_holds sound.tidy.2)).gains Realm.whole_quiet
    rw [found] at gains
    have done := Option.some.inj value
    change (Evaluator.withFuel n).evalGet object name m₀ = _ at done
    unfold Evaluator.evalGet at done
    rw [Run.bind_of_ok found] at done
    exact Evaluator.property_initializes (gains.labelled labelled) initializer noField done
  | @super n id keyword method m₀ c i initializer here =>
    exact Evaluator.evalSuper_initializes labelled initializer here (Option.some.inj value)

end Moment

namespace Heap

/-- Neither the class nor any that it inherits from has an initializer. -/
def NoInitializer (h : Heap) (c : ClassId) : Prop :=
  ∃ path, h.Lineage c path ∧ ∀ p ∈ path, h.ownMethod? initializerName p = none

theorem NoInitializer.findMethod?_none {h : Heap} {root : ScopeId} {c : ClassId}
    (no : h.NoInitializer c) (intact : h.Intact root) : h.findMethod? c initializerName = none := by
  obtain ⟨path, lineage, each⟩ := no
  rw [intact.findMethod?_eq lineage]
  exact List.findSome?_eq_none_iff.mpr each

theorem Has.not_equal {h : Heap} {w : Value} (has : h.Has w) :
    w.equal (.instanceRef h.instances.size) = false := by
  cases w with
  | instanceRef i => exact beq_eq_false_iff_ne.mpr (Nat.ne_of_lt has)
  | _ => rfl

end Heap

theorem Run.oneDeeper_of_ok {α : Type} {x : Run α} {m m' : Machine} {a : α}
    (shallow : m.depth < m.maxDepth) (done : x { m with depth := m.depth + 1 } = .ok a m')
    (line : Nat) : oneDeeper line x m = .ok a { m' with depth := m.depth } := by
  unfold oneDeeper
  simp only [Nat.not_le_of_lt shallow, if_false, done]

theorem Evaluator.construct_noInitializer {ev : Evaluator} {m : Machine} {c : ClassId}
    (none : m.heap.findMethod? c initializerName = none) (arguments : List Value) (line : Nat) :
    ev.construct c arguments line m =
      .ok (.instanceRef m.heap.instances.size)
        { m with heap := m.heap.addInstance ⟨c, {}⟩ } := by
  let m' : Machine := { m with heap := m.heap.addInstance ⟨c, {}⟩ }
  have created : Run.newInstance c m = .ok m.heap.instances.size m' := rfl
  have same : m'.heap.findMethod? c initializerName = Option.none :=
    (@Heap.findMethod?_congr m'.heap m.heap rfl c initializerName).trans none
  have asked : Run.ask (fun m => .ok (m.heap.findMethod? c initializerName)) m' =
      .ok Option.none m' := by
    unfold Run.ask
    simp only [same]
  exact (Run.bind_of_ok created).trans (Run.bind_of_ok asked)

theorem Evaluator.evalCall_noInitializer {ev : Evaluator} {callee : Expr} {es : List Expr}
    {f : Value} {m m₁ m₂ : Machine} {c : ClassId} {arguments : List Value}
    (found : ev.eval callee m = .ok f m₁) (fits : f.callable? = some (.classRef c))
    (given : ev.evalAll es [] m₁ = .ok arguments m₂)
    (none : m₂.heap.findMethod? c initializerName = none) (paren : Token) :
    m₂.heap.arity (.classRef c) = 0 ∧
    (arguments ≠ [] → ev.evalCall callee paren es m =
      .error (.error (.runtime (.wrongArity 0 arguments.length) paren.line)) m₂) ∧
    (arguments = [] → m₂.depth < m₂.maxDepth → ev.evalCall callee paren es m =
      .ok (.instanceRef m₂.heap.instances.size)
        { m₂ with heap := m₂.heap.addInstance ⟨c, {}⟩ }) := by
  have arity : m₂.heap.arity (.classRef c) = 0 := by
    change m₂.heap.classArity c = 0
    unfold Heap.classArity
    rw [none]
  have call := evalCall_evaluated found fits given paren
  rw [arity] at call
  refine ⟨arity, fun some => ?_, fun empty shallow => ?_⟩
  · rw [if_neg (mt List.length_eq_zero_iff.mp some)] at call
    exact call
  · subst empty
    rw [if_pos List.length_nil] at call
    have made := @construct_noInitializer ev { m₂ with depth := m₂.depth + 1 } c none [] paren.line
    exact call.trans (Run.oneDeeper_of_ok shallow made paren.line)

/-- However a session came about, calling a class gives an instance of it that is equal to nothing
that was there before the call. A function that an instance is asked for under the name of
initializers is bound to that instance and stays so, and calling it gives the instance. A class that
neither has nor inherits an initializer takes no arguments. -/
theorem construction_gives_instance {sink : Sink} {clock : Clock} {s : Session}
    (reached : ReflTransGen Session.Step (.start sink clock) s) :
    (∀ (a : Moment) (c : ClassId) (arguments : List Value) (m : Machine) (v : Value) (m' : Machine),
      s.Meets a → a.Calls (.classRef c) arguments m → a.value? = some (.ok v m') →
      ∃ i o, v = .instanceRef i ∧ m.heap.Intact m.globals ∧
        (∀ w, m.heap.Has w → w.equal v = false) ∧
        m'.heap.instances[i]? = some o ∧ o.classId = c) ∧
    (∀ (a : Moment) (i : InstanceId) (v : Value) (m' : Machine),
      s.Meets a → a.AsksInitializer i → a.value? = some (.ok v m') →
      ∃ f, v = .function f ∧ m'.heap.Initializes f i) ∧
    (∀ (f : FunctionId) (i : InstanceId),
      (∀ m₁ m₂, s.Passes m₁ m₂ → m₁.heap.Initializes f i → m₂.heap.Initializes f i) ∧
      (∀ s', ReflTransGen Session.Step s s' → s.machine.heap.Initializes f i →
        s'.machine.heap.Initializes f i) ∧
      ∀ (a : Moment) (arguments : List Value) (m : Machine) (v : Value) (m' : Machine),
        s.Meets a → a.Calls (.function f) arguments m → m.heap.Initializes f i →
        a.value? = some (.ok v m') → v = .instanceRef i) ∧
    ∀ (n : Nat) (callee : Expr) (paren : Token) (es : List Expr) (f : Value) (c : ClassId)
      (arguments : List Value) (m m₁ m₂ : Machine),
      s.Meets ⟨n + 1, .expr (.call callee paren es), m⟩ → evaluate n callee m = .ok f m₁ →
      f.callable? = some (.classRef c) →
      (Evaluator.withFuel n).evalAll es [] m₁ = .ok arguments m₂ → m₂.heap.NoInitializer c →
      m₂.heap.arity (.classRef c) = 0 ∧
      (arguments ≠ [] → evaluate (n + 1) (.call callee paren es) m =
        .error (.error (.runtime (.wrongArity 0 arguments.length) paren.line)) m₂) ∧
      (arguments = [] → m₂.depth < m₂.maxDepth → evaluate (n + 1) (.call callee paren es) m =
        .ok (.instanceRef m₂.heap.instances.size)
          { m₂ with heap := m₂.heap.addInstance ⟨c, {}⟩ }) := by
  -- Whatever moment is met, its state is sound, since the session was reached from a start.
  have start := Session.secure_start sink clock
  have secure := (Session.secure_of_steps reached start).1
  have labelled := Session.labelled_of_steps reached start fun _ _ found => by cases found
  refine ⟨fun a c arguments m v m' meets calls value => ?_, fun a i v m' meets asks value => ?_,
    fun f i => ⟨fun m₁ m₂ passes => (passes.grows secure).initializes,
      fun s' steps => Session.initializes_of_steps steps secure,
      fun a arguments m v m' meets calls bound value => ?_⟩,
    fun n callee paren es f c arguments m m₁ m₂ meets found fits given no => ?_⟩
  · obtain ⟨intact, tidy⟩ := calls.state (meets.sound secure labelled).toSecure
    obtain ⟨n, line, m₁, m₂, done, heap, heap'⟩ := calls.invoked value
    rw [← heap] at tidy
    obtain ⟨rfl, o, new, same⟩ :=
      Evaluator.construct_instance (Evaluator.orderly_withFuel n) tidy done
    rw [heap] at new ⊢
    exact ⟨_, o, rfl, intact.heap, fun w has => has.not_equal, heap' ▸ new, same⟩
  · exact asks.initializes (meets.sound secure labelled) value
  · obtain ⟨-, tidy⟩ := calls.state (meets.sound secure labelled).toSecure
    obtain ⟨n, line, m₁, m₂, done, heap, -⟩ := calls.invoked value
    rw [← heap] at tidy bound
    exact Evaluator.callClosure_initializer (Evaluator.orderly_withFuel n) tidy bound done
  · have state := Moment.Calls.state (.expression found fits given)
      (meets.sound secure labelled).toSecure
    exact Evaluator.evalCall_noInitializer found fits given (no.findMethod?_none state.1.heap) paren

namespace Returning

def source : List UInt8 :=
  "class A { init() { return; } } A().init();".toUTF8.data.toList

def declaration : Stmt :=
  .classDecl (nameToken "A") none
    [⟨some (nameToken "init"), [], [.returnFrom (symbolToken .returnKw) none]⟩]

def creation : Expr :=
  .call (.variable 0 (nameToken "A")) (symbolToken .rightParen) []

def asking : Expr :=
  .get creation (nameToken "init")

def again : Expr :=
  .call asking (symbolToken .rightParen) []

def prepared : Prepared (List Stmt) :=
  ⟨[declaration, .expression again], {}, 1⟩

def episode : Episode :=
  (Session.start .unlimited 0).episode 6 prepared

def declared : Machine :=
  machineOf ((Evaluator.withFuel 6).exec declaration episode.machine)

def asked : Machine :=
  machineOf (evaluate 4 asking declared)

theorem prepares : prepareProgram 0 source = .ok prepared := by cbv

theorem path_again :
    episode.Path [⟨5, .expr again, declared⟩, ⟨6, .stmt (.expression again), declared⟩] := by
  have first : (Evaluator.withFuel 6).exec declaration episode.machine = .ok .normal declared := by
    cbv
  refine .part (.first ⟨rfl, .bind_ok (.exec declaration) first ?_⟩) ⟨rfl, ?_⟩
  · exact .bind (.task (.stmt (.expression again)))
  · exact .bind (.task (.expr again))

theorem path_asking : episode.Path [⟨4, .expr asking, declared⟩, ⟨5, .expr again, declared⟩,
    ⟨6, .stmt (.expression again), declared⟩] :=
  .part path_again ⟨rfl, .bind (.task (.expr asking))⟩

theorem path_creation : episode.Path [⟨3, .expr creation, declared⟩, ⟨4, .expr asking, declared⟩,
    ⟨5, .expr again, declared⟩, ⟨6, .stmt (.expression again), declared⟩] :=
  .part path_asking ⟨rfl, .bind (.task (.expr creation))⟩

theorem construction_gives_instance_returning :
    (∃ m, evaluate 3 creation declared = .ok (.instanceRef 0) m) ∧
    (∀ w, declared.heap.Has w → w.equal (.instanceRef 0) = false) ∧
    ∃ m, evaluate 5 again declared = .ok (.instanceRef 0) m := by
  obtain ⟨fresh, initializes, called, -⟩ := construction_gives_instance
    (.refl : ReflTransGen Session.Step (.start .unlimited 0) _)
  have created : evaluate 3 creation declared =
      .ok (.instanceRef 0) (machineOf (evaluate 3 creation declared)) := by cbv
  have got : evaluate 4 asking declared = .ok (.function 2) asked := by cbv
  have done : evaluate 5 again declared =
      .ok (.instanceRef 0) (machineOf (evaluate 5 again declared)) := by cbv
  have callee : evaluate 2 (.variable 0 (nameToken "A")) declared = .ok (.classRef 0) declared := by
    cbv
  have noField :
      (machineOf (evaluate 3 creation declared)).heap.field? 0 initializerName = none := by cbv
  obtain ⟨i, o, same, -, new, -⟩ := fresh _ 0 [] declared _ _ (.program prepares path_creation)
    (.expression callee rfl rfl) (congrArg some created)
  cases same
  obtain ⟨f, same, bound⟩ := initializes _ 0 _ _ (.program prepares path_asking)
    (.property rfl created noField) (congrArg some got)
  cases same
  have given := (called 2 0).2.2 _ [] _ _ _ (.program prepares path_again)
    (.expression got rfl rfl) bound (congrArg some done)
  exact ⟨⟨_, created⟩, new, _, given ▸ done⟩

end Returning

end Quill
