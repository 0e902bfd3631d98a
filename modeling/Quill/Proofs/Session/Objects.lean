import Quill.Proofs.Evaluator.Secure
import Quill.Proofs.Session.Registers

set_option autoImplicit false

namespace Quill

open Relation (ReflTransGen)

theorem prepareExpression_wellFormed {lo : RefId} {source : List UInt8} {prepared : Prepared Expr}
    (h : prepareExpression lo source = .ok prepared) : prepared.tree.WellFormed := by
  obtain ⟨tokens, scanned, parsed, -⟩ := prepareExpression_stages h
  -- All of the tokens are read, and a tree read from proper tokens is well-formed.
  refine (parseExpression_derives parsed).1.wellFormed fun t mem => ?_
  exact scanTokens_proper scanned t (List.takeWhile_subset _ mem)

namespace Heap

theorem Intact.root_unique {h h' : Heap} {root root' : ScopeId} (intact : h.Intact root)
    (persists : h.Persists h') (intact' : h'.Intact root') : root' = root := by
  have none' : h'.parent? root = none := by
    rw [persists.parents root intact.root]
    exact (intact.parent?_none intact.root).mpr rfl
  exact ((intact'.parent?_none (persists.scope_lt intact.root)).mp none').symm

/-- From every scope the links lead to the root, and from every class to one without a superclass.
Looking up a name, going outward and looking for a method are walks along these links. -/
structure Walkable (h : Heap) (root : ScopeId) : Prop where
  scopes : ∀ s < h.scopes.size, ∃ path, h.Outward s path ∧ path.getLast? = some root ∧
    (∀ name, h.nearest? s name = path.findSome? (h.slotIn? · name)) ∧
    ∀ d, h.ancestor? s d = path[d]?
  classes : ∀ c < h.classes.size, ∃ path, h.Lineage c path ∧
    ∀ name, h.findMethod? c name = path.findSome? (h.ownMethod? name)

theorem Intact.walkable {h : Heap} {root : ScopeId} (intact : h.Intact root) : h.Walkable root := by
  refine ⟨fun s lt => ?_, fun c lt => ?_⟩
  · obtain ⟨path, outward, last⟩ := intact.outward s lt
    exact ⟨path, outward, last, intact.nearest?_eq outward, outward.ancestor?_eq⟩
  · obtain ⟨path, lineage⟩ := intact.lineage c lt
    exact ⟨path, lineage, intact.findMethod?_eq lineage⟩

end Heap

/-- What is run in the course of something, however deep inside it. -/
def Moment.Within (a b : Moment) : Prop :=
  ReflTransGen Moment.Part a b

structure Moment.Secure (h : Heap) (a : Moment) : Prop where
  intact : a.machine.Intact
  known : a.task.Known a.machine.heap
  wellFormed : a.task.WellFormed
  tidy : a.machine.heap.Tidy
  persists : h.Persists a.machine.heap

theorem Proceeds.persists {α : Type} {P : Prop} {x : Evaluator → Run α} {ev : Evaluator}
    {m m₁ m₂ : Machine} (proceeds : Proceeds x ev m m₁ m₂) (dialogic : Dialogic ev.rounds P x)
    (holds : P) (answers : ev.Orderly) (tidy : m.heap.Tidy) :
    m.heap.Persists m₁.heap ∧ m₁.heap.Persists m₂.heap := by
  have answered {t : Task} {m' : Machine} (comes : ComesTo x ev m t m') :
      m.heap.Persists (machineOf (ev.answer t m')).heap := by
    obtain ⟨wf, becomes⟩ := comes.orderly dialogic holds answers tidy
    exact (becomes.trans (answers t wf m' becomes.tidy)).grows.persists
  refine ⟨?_, (proceeds.becomes dialogic holds answers tidy).grows.persists⟩
  cases proceeds with
  | whole | into => exact .refl _
  | next comes | out comes => exact answered comes

namespace Moment

variable {h : Heap}

theorem Part.secure {a b : Moment} (part : a.Part b) (secure : b.Secure h) : a.Secure h := by
  obtain ⟨intact, known⟩ := part.2.secure (fun _ both => both.rule secure.known)
    (Evaluator.secure_withFuel a.fuel) secure.intact
  obtain ⟨wf, becomes⟩ := part.2.orderly (.rule secure.wellFormed.own) secure.wellFormed
    (Evaluator.orderly_withFuel a.fuel) secure.tidy
  exact ⟨intact, known, wf, becomes.tidy, secure.persists.trans becomes.grows.persists⟩

theorem Within.secure {a b : Moment} (within : a.Within b) (secure : b.Secure h) : a.Secure h := by
  induction within using ReflTransGen.head_induction_on with
  | refl => exact secure
  | head part _ ih => exact part.secure ih

end Moment

structure Machine.Moves (h : Heap) (m₁ m₂ : Machine) : Prop where
  first : m₁.Intact
  second : m₂.Intact
  earlier : h.Persists m₁.heap
  persists : m₁.heap.Persists m₂.heap

theorem Moment.Secure.moves {h : Heap} {n : Nat} {t : Task} {m m₁ m₂ : Machine}
    (secure : Secure h ⟨n + 1, t, m⟩)
    (proceeds : Proceeds (fun ev => ev.rule t) (.withFuel n) m m₁ m₂) : Machine.Moves h m₁ m₂ := by
  obtain ⟨first, second⟩ := proceeds.intact (fun _ both => both.rule secure.known)
    (Evaluator.secure_withFuel n) secure.intact
  obtain ⟨earlier, persists⟩ := proceeds.persists (.rule secure.wellFormed.own) secure.wellFormed
    (Evaluator.orderly_withFuel n) secure.tidy
  exact ⟨first, second, secure.persists.trans earlier, persists⟩

namespace Episode

variable {r : Episode}

theorem Path.secure {a : Moment} {around : List Moment} (path : r.Path (a :: around))
    (wf : WellFormedStmts r.program) (tidy : r.machine.heap.Tidy) (intact : r.machine.Intact) :
    a.Secure r.machine.heap := by
  generalize same : a :: around = whole at path
  induction path generalizing a around with
  | first comes =>
    cases same
    obtain ⟨intact', known⟩ := comes.2.secure (fun _ both => both.runTopLevel r.program)
      (Evaluator.secure_withFuel r.fuel) intact
    obtain ⟨wf', becomes⟩ :=
      comes.2.orderly (.runTopLevel r.program) wf (Evaluator.orderly_withFuel r.fuel) tidy
    exact ⟨intact', known, wf', becomes.tidy, becomes.grows.persists⟩
  | part _ part ih =>
    cases same
    exact part.secure (ih rfl)

theorem Passes.moves {m₁ m₂ : Machine} (passes : r.Passes m₁ m₂)
    (wf : WellFormedStmts r.program) (tidy : r.machine.heap.Tidy) (intact : r.machine.Intact) :
    Machine.Moves r.machine.heap m₁ m₂ := by
  rcases passes with proceeds | ⟨n, t, m, around, path, proceeds⟩
  · obtain ⟨first, second⟩ := proceeds.intact (fun _ both => both.runTopLevel r.program)
      (Evaluator.secure_withFuel r.fuel) intact
    obtain ⟨earlier, persists⟩ := proceeds.persists (.runTopLevel r.program) wf
      (Evaluator.orderly_withFuel r.fuel) tidy
    exact ⟨first, second, earlier, persists⟩
  · exact (path.secure wf tidy intact).moves proceeds

end Episode

namespace Session

/-- What may be done with a session: sources are run or evaluated, whatever comes of it, calls are
limited, and functions of the host are added, which know no objects but those that are there. -/
inductive Step : Session → Session → Prop where
  | ran {s : Session} (fuel : Nat) (source : List UInt8) : Step s (s.run fuel source).2
  | evaluated {s : Session} (fuel : Nat) (source : List UInt8) : Step s (s.evaluate fuel source).2
  | limited {s : Session} (depth : Nat) : Step s (s.withMaxDepth depth)
  | extended {s s' : Session} {native : Native} :
      native.Honest s.machine.heap → s.addNative native = .ok s' → Step s s'

/-- While the next source is run or evaluated, the machine goes from one state to a later one. -/
inductive Passes (s : Session) (m₁ m₂ : Machine) : Prop where
  | program {source : List UInt8} {prepared : Prepared (List Stmt)} {fuel : Nat} :
      prepareProgram s.nextId source = .ok prepared →
      (s.episode fuel prepared).Passes m₁ m₂ → Passes s m₁ m₂
  | expression {source : List UInt8} {prepared : Prepared Expr} {fuel n : Nat} {t : Task}
      {m : Machine} : prepareExpression s.nextId source = .ok prepared →
      Moment.Within ⟨n + 1, t, m⟩
        ⟨fuel, .expr prepared.tree, s.machine.withTable (s.tableFor prepared)⟩ →
      Proceeds (fun ev => ev.rule t) (.withFuel n) m m₁ m₂ → Passes s m₁ m₂

structure Secure (s : Session) : Prop where
  intact : s.machine.Intact
  tidy : s.machine.heap.Tidy

theorem secure_start (sink : Sink) (clock : Clock) : (Session.start sink clock).Secure :=
  ⟨⟨.addRoot_clock, Nat.zero_lt_one⟩, Heap.root_tidy⟩

theorem Secure.of_machine {s s' : Session} (secure : s.Secure) (same : s'.machine = s.machine) :
    s'.Secure ∧ s.machine.heap.Persists s'.machine.heap := by
  obtain ⟨intact, tidy⟩ := secure
  rw [← same] at intact tidy ⊢
  exact ⟨⟨intact, tidy⟩, .refl _⟩

theorem Passes.moves {s : Session} {m₁ m₂ : Machine} (passes : s.Passes m₁ m₂)
    (secure : s.Secure) : Machine.Moves s.machine.heap m₁ m₂ := by
  obtain ⟨⟨heap, scope⟩, tidy⟩ := secure
  cases passes with
  | program prepares passes =>
    exact passes.moves (prepareProgram_accepted prepares).wellFormed tidy ⟨heap, scope⟩
  | @expression _ prepared _ _ _ _ prepares within proceeds =>
    have wf := prepareExpression_wellFormed prepares
    exact (within.secure ⟨⟨heap, scope⟩, trivial, wf, tidy, .refl _⟩).moves proceeds

theorem Step.secure {s s' : Session} (step : s.Step s') (secure : s.Secure) :
    s'.Secure ∧ s.machine.heap.Persists s'.machine.heap := by
  have ⟨⟨heap, scope⟩, tidy⟩ := secure
  cases step with
  | limited depth => exact ⟨⟨⟨heap, scope⟩, tidy⟩, .refl _⟩
  | @extended _ native honest added =>
    obtain ⟨heap', rfl, rfl⟩ := addNative_ok added
    -- The heap grows twice: by the native function, then by the variable that holds it.
    let added := s.machine.heap.addNative native
    let value := Value.native s.machine.heap.natives.size
    have has : added.Has value := by simp [added, value, Heap.Has, Heap.addNative]
    have persists : s.machine.heap.Persists (added.write s.machine.globals native.name value) :=
      (s.machine.heap.persists_addNative native).trans (added.persists_write _ _ _)
    have tidy' : (added.write s.machine.globals native.name value).Tidy :=
      ⟨tidy.1, tidy.2.addNative honest.discreet⟩
    exact ⟨⟨⟨(heap.addNative honest).write _ _ has, persists.scope_lt scope⟩, tidy'⟩, persists⟩
  | ran fuel source =>
    unfold run
    cases prepares : prepareProgram s.nextId source with
    | error errors => exact secure.of_machine (s.discard_machine programRule source)
    | ok prepared =>
      let r := s.episode fuel prepared
      have wf := (prepareProgram_accepted prepares).wellFormed
      have passes : r.Passes r.machine (machineOf r.result) := .inl .whole
      have moves := passes.moves wf tidy ⟨heap, scope⟩
      have left : (s.perform prepared (interpret fuel)).2.machine = machineOf r.result := by
        rw [perform_eq]
        exact machineOf_interpret fuel prepared.tree r.machine
      dsimp only
      rw [left]
      exact ⟨⟨left ▸ moves.second, left ▸ (passes.becomes wf tidy).tidy⟩, moves.persists⟩
  | evaluated fuel source =>
    unfold evaluate
    cases prepares : prepareExpression s.nextId source with
    | error errors => exact secure.of_machine (s.discard_machine loneExpressionRule source)
    | ok prepared =>
      let m := s.machine.withTable (s.tableFor prepared)
      have intact : m.Intact := ⟨heap, scope⟩
      have yields := ((Evaluator.secure_withFuel fuel).eval prepared.tree m intact (.refl _)).1
      have becomes := Evaluator.orderly_withFuel fuel (.expr prepared.tree)
        (prepareExpression_wellFormed prepares) m tidy
      dsimp only
      rw [perform_eq]
      exact ⟨⟨yields.leaves.machine intact, becomes.tidy⟩, yields.leaves.persists⟩

theorem secure_of_steps {s s' : Session} (steps : ReflTransGen Step s s') (secure : s.Secure) :
    s'.Secure ∧ s.machine.heap.Persists s'.machine.heap := by
  induction steps with
  | refl => exact ⟨secure, .refl _⟩
  | tail _ step ih =>
    obtain ⟨secure', persists⟩ := ih
    obtain ⟨secure'', persists'⟩ := step.secure secure'
    exact ⟨secure'', persists.trans persists'⟩

/-- A state of the machine before, in the course of, or after running the next source. -/
def Shows (s : Session) (m : Machine) : Prop :=
  m = s.machine ∨ ∃ m', s.Passes m m' ∨ s.Passes m' m

end Session

/-- However a session came about, its heap is intact, before and after every source and at every
moment in between, so all walks along its links end. No object is ever lost, and none ever changes
its links. -/
theorem heap_intact {sink : Sink} {clock : Clock} {s : Session}
    (reached : ReflTransGen Session.Step (.start sink clock) s) :
    (∀ m, s.Shows m → m.globals = s.machine.globals ∧ m.scope < m.heap.scopes.size ∧
      m.heap.Intact m.globals ∧ m.heap.Walkable m.globals ∧
      s.machine.heap.Persists m.heap) ∧
    (∀ m₁ m₂, s.Passes m₁ m₂ → m₁.heap.Persists m₂.heap) ∧
    ∀ s', ReflTransGen Session.Step s s' → s.machine.heap.Persists s'.machine.heap := by
  have secure := (Session.secure_of_steps reached (Session.secure_start sink clock)).1
  refine ⟨fun m shows => ?_, fun m₁ m₂ passes => (passes.moves secure).persists,
    fun s' steps => (Session.secure_of_steps steps secure).2⟩
  have known : m.Intact ∧ s.machine.heap.Persists m.heap := by
    rcases shows with rfl | ⟨m', passes | passes⟩
    · exact ⟨secure.intact, .refl _⟩
    · exact ⟨(passes.moves secure).first, (passes.moves secure).earlier⟩
    · have moves := passes.moves secure
      exact ⟨moves.second, moves.earlier.trans moves.persists⟩
  obtain ⟨intact, persists⟩ := known
  have globals := secure.intact.heap.root_unique persists intact.heap
  exact ⟨globals, intact.scope, intact.heap, intact.heap.walkable, persists⟩

def subclassed : List UInt8 :=
  "class A { f() {} } class B < A {}".toUTF8.data.toList

def inherited : Session :=
  ((Session.start .unlimited 0).run 5 subclassed).2

theorem heap_intact_inherited :
    inherited.machine.heap.classes.size = 2 ∧
    inherited.machine.heap.Intact inherited.machine.globals ∧
    inherited.machine.heap.findMethod? 1 "f" = some 0 ∧
    (∃ path, inherited.machine.heap.Lineage 1 path ∧
      path.findSome? (inherited.machine.heap.ownMethod? "f") = some 0) ∧
    inherited.machine.heap.Persists (inherited.run 5 subclassed).2.machine.heap := by
  have classes : inherited.machine.heap.classes.size = 2 := by cbv
  have method : inherited.machine.heap.findMethod? 1 "f" = some 0 := by cbv
  have step : Session.Step (.start .unlimited 0) inherited := .ran 5 subclassed
  obtain ⟨shown, -, later⟩ := heap_intact (.single step)
  obtain ⟨-, -, intact, walks, -⟩ := shown inherited.machine (.inl rfl)
  obtain ⟨path, lineage, found⟩ := walks.classes 1 (classes ▸ Nat.one_lt_two)
  refine ⟨classes, intact, method, ⟨path, lineage, found "f" ▸ method⟩, ?_⟩
  exact later _ (.single (.ran 5 subclassed))

end Quill
