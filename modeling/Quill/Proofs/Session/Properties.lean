import Quill.Proofs.Evaluator.Traces
import Quill.Proofs.Session.Construction

set_option autoImplicit false

namespace Quill

open Relation (ReflTransGen)

namespace Session

variable {s s' : Session}

theorem Meets.part {a b : Moment} (part : a.Part b) (meets : s.Meets b) : s.Meets a := by
  cases meets with
  | program prepares path => exact .program prepares (.part path part)
  | expression prepares within => exact .expression prepares (.head part within)

structure Respects (s : Session) (R : Heap → Heap → Prop) : Prop where
  respect : Heap.Respect R
  spares : ∀ a, s.Meets a → a.Spares R
  secure : s.Secure
  labelled : s.machine.heap.Labelled

namespace Respects

variable {R : Heap → Heap → Prop} (kept : s.Respects R) {a b : Moment} {m m₁ m₂ : Machine}

include kept

theorem owns (a : Moment) (meets : s.Meets a) : a.task.Own ∧ a.Spares R :=
  ⟨(meets.sound kept.secure kept.labelled).wellFormed.own, kept.spares a meets⟩

theorem moment (meets : s.Meets a) : a.Keeps R :=
  Moment.keeps_of_spares kept.respect Meets.part kept.owns meets

theorem part (part : a.Part b) (meets : s.Meets b) : R b.machine.heap a.machine.heap := by
  have sound := meets.sound kept.secure kept.labelled
  exact part.keeps_into kept.respect Meets.part kept.owns meets sound.wellFormed sound.tidy

theorem statements {prepared : Prepared (List Stmt)} {fuel : Nat} :
    Conducts R (fun ev => runTopLevel ev prepared.tree) (.withFuel fuel)
      (s.episode fuel prepared).machine :=
  conducts_runTopLevel kept.respect (.withFuel fuel) prepared.tree (s.episode fuel prepared).machine

theorem into (meets : s.Meets a) : R s.machine.heap a.machine.heap := by
  cases meets with
  | @program source prepared fuel around prepares path =>
    -- On the path, from what the program itself asks for inwards.
    generalize same : a :: around = whole at path
    induction path generalizing a around with
    | @first a comes =>
      cases same
      have wf := (prepareProgram_accepted prepares).wellFormed
      refine kept.statements.into kept.respect (.runTopLevel prepared.tree) (fun t m' comes' => ?_)
        wf (Evaluator.orderly_withFuel fuel) kept.secure.tidy comes.2
      exact kept.moment (a := ⟨fuel, t, m'⟩) (.program prepares (.first ⟨rfl, comes'⟩))
    | part path part ih =>
      cases same
      exact kept.respect.trans (ih rfl) (kept.part part (.program prepares path))
  | expression prepares within =>
    induction within using ReflTransGen.head_induction_on with
    | refl => exact kept.respect.refl _
    | head part rest ih =>
      exact kept.respect.trans ih (kept.part part (.expression prepares rest))

theorem passes (passes : s.Passes m₁ m₂) : R s.machine.heap m₁.heap ∧ R s.machine.heap m₂.heap := by
  -- A state on the way is one on the way of a rule that is run at some moment.
  have rule {n : Nat} {t : Task} {m : Machine} (meets : s.Meets ⟨n + 1, t, m⟩)
      (proceeds : Proceeds (fun ev => ev.rule t) (.withFuel n) m m₁ m₂) :
      R s.machine.heap m₁.heap ∧ R s.machine.heap m₂.heap := by
    have sound := meets.sound kept.secure kept.labelled
    have own := sound.wellFormed.own
    have conducts := conducts_rule kept.respect own (kept.spares _ meets).rule
    obtain ⟨first, second⟩ := conducts.proceeds kept.respect (.rule own) (fun t' m' comes =>
        kept.moment (a := ⟨n, t', m'⟩) (meets.part ⟨rfl, comes⟩))
      sound.wellFormed (Evaluator.orderly_withFuel n) sound.tidy proceeds
    exact ⟨kept.respect.trans (kept.into meets) first, kept.respect.trans (kept.into meets) second⟩
  cases passes with
  | @program source prepared fuel prepares passes =>
    rcases passes with proceeds | ⟨n, t, m, around, path, proceeds⟩
    · have wf := (prepareProgram_accepted prepares).wellFormed
      refine kept.statements.proceeds kept.respect (.runTopLevel prepared.tree)
        (fun t m' comes => ?_) wf (Evaluator.orderly_withFuel fuel) kept.secure.tidy proceeds
      exact kept.moment (a := ⟨fuel, t, m'⟩) (.program prepares (.first ⟨rfl, comes⟩))
    · exact rule (.program prepares path) proceeds
  | expression prepares within proceeds => exact rule (.expression prepares within) proceeds

theorem shows (shows : s.Shows m) : R s.machine.heap m.heap := by
  rcases shows with rfl | ⟨m', passes | passes⟩
  · exact kept.respect.refl _
  · exact (kept.passes passes).1
  · exact (kept.passes passes).2

theorem step (step : s.Step s') : R s.machine.heap s'.machine.heap := by
  cases step with
  | limited depth => exact kept.respect.refl _
  | extended honest added =>
    obtain ⟨heap, rfl, rfl⟩ := addNative_ok added
    exact kept.respect.calm ⟨fun _ _ => rfl, rfl, fun _ _ found => found⟩
  | ran fuel source =>
    cases prepares : prepareProgram s.nextId source with
    | error errors =>
      rw [run_rejected fuel prepares, discard_machine]
      exact kept.respect.refl _
    | ok prepared =>
      have whole : (s.episode fuel prepared).Passes _ _ := .inl .whole
      rw [run_prepared fuel prepares, perform_eq]
      dsimp only
      rw [machineOf_interpret]
      exact (kept.passes (.program prepares whole)).2
  | evaluated fuel source =>
    cases prepares : prepareExpression s.nextId source with
    | error errors =>
      rw [evaluate_rejected fuel prepares, discard_machine]
      exact kept.respect.refl _
    | ok prepared =>
      have meets : s.Meets
          ⟨fuel, .expr prepared.tree, s.machine.withTable (s.tableFor prepared)⟩ :=
        .expression prepares .refl
      rw [evaluate_prepared fuel prepares, perform_eq]
      exact kept.moment meets

end Respects

def Lived (first s : Session) (a : Moment) : Prop :=
  ∃ s', ReflTransGen Step first s' ∧ ReflTransGen Step s' s ∧ s'.Meets a

end Session

theorem Heap.respect_traces (P : Moment → Prop) :
    Heap.Respect fun h h' => ∃ writes, h.Traces P writes h' where
  calm undisturbed := ⟨[], .calm .start undisturbed⟩
  trans := fun ⟨_, first⟩ ⟨_, second⟩ => ⟨_, first.trans second⟩

theorem Moment.Sets.has {h : Heap} {a : Moment} {i : InstanceId} {name : Token} {v : Value}
    {m : Machine} (sets : a.Sets i name v m) (secure : a.Secure h) :
    m.heap.Has (.instanceRef i) := by
  obtain ⟨n, t, m₀⟩ := a
  obtain ⟨n, rfl, sets⟩ := sets
  cases sets with
  | @set object e _ _ m₁ _ _ _ found given =>
    have safe := Evaluator.secure_withFuel n
    have first := (safe.eval object m₀ secure.intact (.refl _)).1
    rw [found] at first
    have second := (safe.eval e m₁ (first.1.machine secure.intact) (.refl _)).1
    rw [given] at second
    exact second.1.persists.has first.2

theorem Moment.Secure.spares {P : Moment → Prop} {h : Heap} {a : Moment} (secure : a.Secure h)
    (there : P a) : a.Spares fun h h' => ∃ writes, h.Traces P writes h' where
  sets sets := ⟨_, .set .start there sets (sets.has secure)⟩
  makes makes := ⟨_, .made .start there makes⟩

namespace Session

variable {first s : Session} {m : Machine}

theorem traces (secure : first.Secure) (labelled : first.machine.heap.Labelled)
    (steps : ReflTransGen Step first s) (shows : s.Shows m) :
    ∃ writes, first.machine.heap.Traces (Lived first s) writes m.heap := by
  have respect := Heap.respect_traces (Lived first s)
  -- Moments are counted for the whole life up to `s`, so a state on the way is one that leads there.
  have kept {s' : Session} (before : ReflTransGen Step first s') (after : ReflTransGen Step s' s) :
      s'.Respects fun h h' => ∃ writes, h.Traces (Lived first s) writes h' := by
    have secure' := (secure_of_steps before secure).1
    have labelled' := labelled_of_steps before secure labelled
    refine ⟨respect, fun a meets => ?_, secure', labelled'⟩
    exact (meets.sound secure' labelled').spares ⟨s', before, after, meets⟩
  have lived {s' : Session} (before : ReflTransGen Step first s') (after : ReflTransGen Step s' s) :
      ∃ writes, first.machine.heap.Traces (Lived first s) writes s'.machine.heap := by
    induction before with
    | refl => exact respect.refl _
    | tail before step ih =>
      have later := ReflTransGen.head step after
      exact respect.trans (ih later) ((kept before later).step step)
  exact respect.trans (lived steps .refl) ((kept steps .refl).shows shows)

end Session

theorem Session.Meets.passes {s : Session} {n : Nat} {t : Task} {m m₁ m₂ : Machine}
    (meets : s.Meets ⟨n + 1, t, m⟩)
    (proceeds : Proceeds (fun ev => ev.rule t) (.withFuel n) m m₁ m₂) : s.Passes m₁ m₂ := by
  cases meets with
  | program prepares path => exact .program prepares (.inr ⟨n, t, m, _, path, proceeds⟩)
  | expression prepares within => exact .expression prepares within proceeds

theorem Session.Shows.intact {s : Session} {m : Machine} (shows : s.Shows m) (secure : s.Secure) :
    m.Intact := by
  rcases shows with rfl | ⟨m', passes | passes⟩
  · exact secure.intact
  · exact (passes.moves secure).first
  · exact (passes.moves secure).second

namespace Evaluator

theorem exec_declares {n : Nat} {name : Token} {superclass : Option Expr} {methods : List Function}
    {m m' : Machine} {flow : Flow} (exist : m.scope < m.heap.scopes.size)
    (wf : Superclass superclass)
    (done : (withFuel (n + 1)).exec (.classDecl name superclass methods) m = .ok flow m') :
    ∃ parent, (withFuel n).evalSuperclass name superclass
          { m with heap := m.heap.write m.scope name.lexeme .nil } =
        .ok parent { m with heap := m.heap.write m.scope name.lexeme .nil } ∧
      m'.heap.value? m.scope name.lexeme = some (.classRef m.heap.classes.size) ∧
      m.heap.Gets name.lexeme parent methods m'.heap := by
  let m₁ : Machine := { m with heap := m.heap.write m.scope name.lexeme .nil }
  change (withFuel n).execClass name superclass methods m = .ok flow m' at done
  rw [execClass_eq] at done
  obtain ⟨_, m₂, defined, done⟩ := Run.of_bind_ok done
  rcases Run.define_cases name .nil m with ⟨-, defined'⟩ | ⟨-, refused⟩
  · cases defined.symm.trans defined'
    obtain ⟨parent, m₃, known, done⟩ := Run.of_bind_ok done
    have same := machineOf_evalSuperclass n name wf m₁
    rw [known] at same
    obtain rfl : m₃ = m₁ := same
    have gets := machineOf_buildClass name parent methods m₁
    rw [done] at gets
    have bound : m₁.heap.Binds m₁.scope name.lexeme :=
      (Heap.binds_write_iff exist ..).mpr (.inr ⟨rfl, rfl⟩)
    exact ⟨parent, known, buildClass_bound (m := m₁) bound done, { gets with }⟩
  · cases defined.symm.trans refused

end Evaluator

theorem Heap.Gets.descends {h h' : Heap} {name : String} {parent : Option ClassId}
    {methods : List Function} (gets : h.Gets name parent methods h') :
    (parent = none → h'.Descends h.classes.size [methods]) ∧
      ∀ p chain, parent = some p → h.Descends p chain →
        h'.Descends h.classes.size (methods :: chain) := by
  obtain ⟨cls, classes⟩ := gets.classes
  refine ⟨?_, ?_⟩
  · rintro rfl
    exact .root gets.declares
  · rintro p chain rfl descends
    refine .inherits gets.declares (descends.mono gets.closures fun c cls' found => ?_)
    rw [classes]
    exact getElem?_push_old found

theorem Session.Meets.asks {s : Session} {h : Heap} {n : Nat} {object : Expr} {name : Token}
    {m m₁ : Machine} {i : InstanceId} (meets : s.Meets ⟨n + 1, .expr (.get object name), m⟩)
    (secure : Moment.Secure h ⟨n + 1, .expr (.get object name), m⟩)
    (found : (Evaluator.withFuel n).eval object m = .ok (.instanceRef i) m₁) :
    s.Shows m₁ ∧ m₁.heap.Has (.instanceRef i) ∧
      (Evaluator.withFuel (n + 1)).eval (.get object name) m = Evaluator.property i name m₁ := by
  have out : s.Passes (machineOf ((Evaluator.withFuel n).eval object m)) _ :=
    meets.passes (.out (.bind (.task (.expr object))))
  have known := ((Evaluator.secure_withFuel n).eval object m secure.intact (.refl _)).1
  rw [found] at out known
  exact ⟨.inr ⟨_, .inl out⟩, known.2, Run.bind_of_ok found⟩

/-- However a session came about, a class that is declared has the methods it is declared with,
above what it inherits from, and keeps them. At any time every class is at the beginning of a chain
of such classes, and the method that is found for it is the last one of its name in the nearest
class on the chain that has one. An instance, whatever was stored on it and on others before, gives for a
name what was stored there last under it, or else a new function with the code of that method, in
which `this` is the instance, or else a runtime error, and is not changed by that. -/
theorem properties_follow_history {sink : Sink} {clock : Clock} {s : Session}
    (reached : ReflTransGen Session.Step (.start sink clock) s) :
    (∀ (n : Nat) (name : Token) (superclass : Option Expr) (methods : List Function) (m : Machine)
      (flow : Flow) (m' : Machine),
      s.Meets ⟨n + 1, .stmt (.classDecl name superclass methods), m⟩ →
      (Evaluator.withFuel (n + 1)).exec (.classDecl name superclass methods) m = .ok flow m' →
      ∃ parent, (Evaluator.withFuel n).evalSuperclass name superclass
            { m with heap := m.heap.write m.scope name.lexeme .nil } =
          .ok parent { m with heap := m.heap.write m.scope name.lexeme .nil } ∧
        m'.heap.value? m.scope name.lexeme = some (.classRef m.heap.classes.size) ∧
        (parent = none → m'.heap.Descends m.heap.classes.size [methods]) ∧
        ∀ p chain, parent = some p → m.heap.Descends p chain →
          m'.heap.Descends m.heap.classes.size (methods :: chain)) ∧
    (∀ (n : Nat) (object : Expr) (name : Token) (m : Machine) (i : InstanceId) (m₁ : Machine),
      s.Meets ⟨n + 1, .expr (.get object name), m⟩ →
      evaluate n object m = .ok (.instanceRef i) m₁ →
      s.Shows m₁ ∧ m₁.heap.Has (.instanceRef i) ∧
        evaluate (n + 1) (.get object name) m = Evaluator.property i name m₁) ∧
    (∀ c chain, (∀ m₁ m₂, s.Passes m₁ m₂ → m₁.heap.Descends c chain → m₂.heap.Descends c chain) ∧
      ∀ s', ReflTransGen Session.Step s s' → s.machine.heap.Descends c chain →
        s'.machine.heap.Descends c chain) ∧
    ∀ m, s.Shows m → ∃ earlier,
      (Session.start sink clock).machine.heap.Traces (Session.Lived (.start sink clock) s) earlier
        m.heap ∧
      (∀ c < m.heap.classes.size,
        m.heap.MadeAt (Session.Lived (.start sink clock) s) c ∧ ∃ chain, m.heap.Descends c chain) ∧
      (∀ c chain x, m.heap.Descends c chain →
        Option.Rel m.heap.Codes (m.heap.findMethod? c x) (nearestNamed? chain x)) ∧
      (∀ sets m' i o chain name, Run.setFields sets m = .ok () m' →
        m'.heap.instances[i]? = some o → m'.heap.Descends o.classId chain →
        m'.Answers i o.classId name (lastSet? (earlier ++ sets) i name.lexeme)
          (nearestNamed? chain name.lexeme)) ∧
      ∀ i name, m.heap.Undisturbed (machineOf (Evaluator.property i name m)).heap := by
  have start := Session.secure_start sink clock
  have labelled : (Session.start sink clock).machine.heap.Labelled :=
    fun _ _ found => by cases found
  have secure := (Session.secure_of_steps reached start).1
  have labelled' := Session.labelled_of_steps reached start labelled
  -- Declaring a class, asking for a property, keeping chains, and then what all that happened
  -- before a state comes to in it.
  refine ⟨fun n name superclass methods m flow m' meets done => ?_,
    fun n object name m i m₁ meets found => ?_,
    fun c chain => ⟨fun m₁ m₂ passes => ?_, fun s' steps => ?_⟩, fun m shows => ?_⟩
  · have sound := meets.sound secure labelled'
    obtain ⟨parent, known, bound, gets⟩ :=
      Evaluator.exec_declares sound.intact.scope sound.wellFormed.2.1 done
    exact ⟨parent, known, bound, gets.descends⟩
  · exact meets.asks (meets.sound secure labelled').toSecure found
  · have persists := (passes.moves secure).persists
    exact (·.mono persists.closures persists.classes)
  · have persists := (Session.secure_of_steps steps secure).2
    exact (·.mono persists.closures persists.classes)
  · obtain ⟨earlier, traces⟩ := Session.traces start labelled reached shows
    have intact := (shows.intact secure).heap
    have made (c : ClassId) (lt : c < m.heap.classes.size) := traces.madeAt (Nat.zero_le c) lt
    refine ⟨earlier, traces, fun c lt => ⟨made c lt, intact.founded.descends made c lt⟩,
      fun c chain x descends => descends.findMethod? intact.founded x,
      fun sets m' i o chain name done found descends => ?_,
      fun i name => Run.Calm.gentle.property i name m⟩
    obtain ⟨instances, done', size, fields⟩ := Run.setFields_ok sets m
    cases done.symm.trans done'
    have has : m.heap.Has (.instanceRef i) := by
      have lt := (Array.getElem?_eq_some_iff.mp found).1
      exact lt_of_lt_of_eq lt size
    let h : Heap := { m.heap with instances := instances }
    have answers := Evaluator.property_answers (m := { m with heap := h }) intact.founded found
      descends name
    rw [fields i name.lexeme has, traces.field?] at answers
    -- Before anything has happened there are no fields.
    have nothing : (Session.start sink clock).machine.heap.field? i name.lexeme = none := rfl
    rw [nothing, Option.or_none] at answers
    rw [lastSet?_append]
    exact answers

namespace Shadowing

def source : List UInt8 :=
  "class A { f() {} f(x) {} } class B < A { g() {} } var b = B(); B().g = true;".toUTF8.data.toList

def inherited : List Function :=
  [⟨some (nameToken "f"), [], []⟩, ⟨some (nameToken "f"), [nameToken "x"], []⟩]

def own : List Function :=
  [⟨some (nameToken "g"), [], []⟩]

def above : Stmt :=
  .classDecl (nameToken "A") none inherited

def below : Stmt :=
  .classDecl (nameToken "B") (some (.variable 0 (nameToken "A"))) own

def creation (id : RefId) : Expr :=
  .call (.variable id (nameToken "B")) (symbolToken .rightParen) []

def prepared : Prepared (List Stmt) :=
  ⟨[above, below, .var (nameToken "b") (some (creation 1)),
    .expression (.set (creation 2) (nameToken "g") (.literal (.boolean true)))], {}, 3⟩

def episode : Episode :=
  (Session.start .unlimited 0).episode 6 prepared

def first : Machine :=
  machineOf ((Evaluator.withFuel 6).exec above episode.machine)

def second : Machine :=
  machineOf ((Evaluator.withFuel 6).exec below first)

def last : Machine :=
  machineOf episode.result

theorem prepares : prepareProgram 0 source = .ok prepared := by cbv

theorem path_above : episode.Path [⟨6, .stmt above, episode.machine⟩] :=
  .first ⟨rfl, .bind (.task (.stmt above))⟩

theorem comes_below : ComesTo (fun ev => runTopLevel ev prepared.tree) (.withFuel 6)
    episode.machine (.stmt below) first := by
  have done : (Evaluator.withFuel 6).exec above episode.machine = .ok .normal first := by cbv
  exact .bind_ok (.exec above) done (.bind (.task (.stmt below)))

theorem properties_follow_history_shadowing :
    last.Answers 0 1 (nameToken "f") none (some ⟨some (nameToken "f"), [nameToken "x"], []⟩) ∧
    last.Answers 0 1 (nameToken "g") none (some ⟨some (nameToken "g"), [], []⟩) ∧
    last.Answers 1 1 (nameToken "g") (some (.boolean true)) (some ⟨some (nameToken "g"), [], []⟩) ∧
    last.Answers 1 1 (nameToken "h") none none := by
  obtain ⟨declared, -, kept, shown⟩ := properties_follow_history
    (.refl : ReflTransGen Session.Step (.start .unlimited 0) _)
  obtain ⟨parent, known, -, root, -⟩ := declared 5 (nameToken "A") none inherited episode.machine
    .normal first (.program prepares path_above) (by cbv)
  cases known
  obtain ⟨parent', known', -, -, inherits⟩ := declared 5 (nameToken "B")
    (some (.variable 0 (nameToken "A"))) own first .normal second
    (.program prepares (.first ⟨rfl, comes_below⟩)) (by cbv)
  have inheriting : parent' = some 0 := by
    have above : (Evaluator.withFuel 5).evalSuperclass (nameToken "B")
        (some (.variable 0 (nameToken "A")))
        { first with heap := first.heap.write first.scope "B" .nil } =
      .ok (some 0) { first with heap := first.heap.write first.scope "B" .nil } := by cbv
    cases known'.symm.trans above
    rfl
  -- Both classes are there when the second declaration is done, and stay as they are.
  have passes : (Session.start .unlimited 0).Passes second last :=
    .program prepares (.inl (.out comes_below))
  have number : first.heap.classes.size = 1 := by cbv
  have descends : last.heap.Descends 1 [own, inherited] := by
    rw [← number]
    exact (kept _ _).1 _ _ passes (inherits 0 [inherited] inheriting (root rfl))
  obtain ⟨earlier, traces, -, -, gets, -⟩ := shown last (.inr ⟨_, .inr passes⟩)
  have answers {i : InstanceId} {name : Token} {v : Option Value} {f : Option Function}
      (there : last.heap.instances[i]?.map Instance.classId = some 1)
      (field : last.heap.field? i name.lexeme = v)
      (counts : nearestNamed? [own, inherited] name.lexeme = f) : last.Answers i 1 name v f := by
    obtain ⟨o, found, same⟩ := Option.map_eq_some_iff.mp there
    have got := gets [] last i o [own, inherited] name rfl found (same ▸ descends)
    have unset : (Session.start .unlimited 0).machine.heap.field? i name.lexeme = none := rfl
    rw [traces.field?, unset, Option.or_none] at field
    rwa [List.append_nil, field, counts, same] at got
  refine ⟨?_, ?_, ?_, ?_⟩
  · exact answers (by cbv) (by cbv) (by cbv)
  · exact answers (by cbv) (by cbv) (by cbv)
  · exact answers (by cbv) (by cbv) (by cbv)
  · exact answers (by cbv) (by cbv) (by cbv)

end Shadowing

end Quill
