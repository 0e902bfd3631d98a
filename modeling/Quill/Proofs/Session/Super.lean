import Mathlib.Data.List.Nodup
import Quill.Proofs.Evaluator.Progress
import Quill.Proofs.Grammar.Program
import Quill.Proofs.Session.History

set_option autoImplicit false

namespace Quill

theorem Evaluator.evalRule_super (ev : Evaluator) {id : RefId} {keyword method : Token}
    {m : Machine} {c : ClassId} {i : InstanceId} (found : superBindings id keyword m = .ok (c, i)) :
    ev.evalRule (.super id keyword method) m =
      match m.heap.findMethod? c method.lexeme with
      | some f => (Value.function <$> bindMethod f i) m
      | none => Run.failAt method.line (.undefinedProperty method.lexeme) m := by
  have asked : Run.ask (superBindings id keyword) m = .ok (c, i) m := by
    unfold Run.ask
    rw [found]
  have sought : Run.ask (fun m => .ok (m.heap.findMethod? c method.lexeme)) m =
      .ok (m.heap.findMethod? c method.lexeme) m := rfl
  refine (Run.bind_of_ok asked).trans ((Run.bind_of_ok sought).trans ?_)
  cases m.heap.findMethod? c method.lexeme <;> rfl

theorem Session.Reached.tidy {s : Session} {earlier : List Episode} (reached : s.Reached earlier) :
    s.machine.heap.Tidy := by
  induction reached with
  | start sink clock maxDepth => exact Heap.root_tidy
  | @rejected s earlier source errors fuel _ rejected ih =>
    rw [run_rejected fuel rejected, discard_machine]
    exact ih
  | @accepted s earlier source prepared fuel _ prepares ended ih =>
    have accepted := prepareProgram_accepted prepares
    have passes : (s.episode fuel prepared).Passes _ (machineOf (s.episode fuel prepared).result) :=
      .inl .whole
    have becomes := passes.becomes accepted.wellFormed ih
    rw [run_eq fuel prepares]
    cases result : (s.episode fuel prepared).result with
    | ok a m =>
      rw [result] at becomes
      exact becomes.tidy
    | error halt m =>
      rw [result] at becomes
      cases halt <;> exact becomes.tidy

/-- Wherever `super` is written in a class declaration, it denotes the class that the superclass
turned out to be when that declaration was executed and opened the scope that is found now; its
method is bound to the instance that `this` denotes at the same place. From one state to the next,
a run never changes what `this` and `super` are bound to. -/
theorem Session.Reached.super_lexical {s : Session} {earlier : List Episode}
    (reached : s.Reached earlier) {source : List UInt8} {prepared : Prepared (List Stmt)}
    (prepares : prepareProgram s.nextId source = .ok prepared) (fuel : Nat) :
    (∀ n id keyword method m around declaration,
      (s.episode fuel prepared).Path
        (⟨n + 1, .expr (.super id keyword method), m⟩ :: around) →
      (id, declaration) ∈ superSitesIn (s.episode fuel prepared :: earlier) →
      ∃ q ∈ s.episode fuel prepared :: earlier, ∃ v, Visits q.program v ∧
        v.piece = .expr (.super id keyword method) ∧
        ∃ d t t' c i, v.state.distance? "this" = some d ∧
          m.heap.ancestor? m.scope d = some t' ∧
          m.heap.value? t' "this" = some (.instanceRef i) ∧
          m.heap.ancestor? m.scope (d + 1) = some t ∧
          m.heap.value? t "super" = some (.classRef c) ∧
          (∃ k ∈ s.episode fuel prepared :: earlier, k.Opens t c declaration) ∧
          (Evaluator.withFuel (n + 1)).eval (.super id keyword method) m =
            match m.heap.findMethod? c method.lexeme with
            | some f => (Value.function <$> Evaluator.bindMethod f i) m
            | none => Run.failAt method.line (.undefinedProperty method.lexeme) m) ∧
    (∀ m₁ m₂ t x value, (s.episode fuel prepared).Passes m₁ m₂ → Heap.Reserved x →
      m₁.heap.value? t x = some value → m₂.heap.value? t x = some value) := by
  have steady := reached.steady
  have accepted := prepareProgram_accepted prepares
  constructor
  · intro n id keyword method m around declaration path site
    obtain ⟨w, start⟩ := steady.start accepted fuel
    obtain ⟨v, w', piece, here⟩ := (steady.covered accepted fuel).here start path
    have piece' : v.piece = .expr (.super id keyword method) := (Option.some.inj piece).symm
    obtain ⟨q, mem, visits⟩ := (steady.setting_of accepted fuel).known v here.known
    obtain ⟨declaration', d, c, i, t, t', site', this, -, outer, super, made, inner, instance',
      bindings⟩ := superBindings_ok piece' here
    -- No two places share an identity, so there is one declaration only that it stands in.
    have same : (id, declaration') = (id, declaration) :=
      List.inj_on_of_nodup_map (steady.distinct_next accepted fuel) site' site rfl
    cases same
    exact ⟨q, mem, v, visits, piece', d, t, t', c, i, this, inner, instance', outer, super, made,
      Evaluator.evalRule_super (.withFuel n) bindings⟩
  · intro m₁ m₂ t x value passes word found
    have becomes := passes.becomes accepted.wellFormed reached.tidy
    exact becomes.grows.words t x value word found

namespace Inheriting

def source : List UInt8 :=
  "class A { m() {} } class B < A { init() { super.m; } } B();".toUTF8.data.toList

def use : Expr :=
  .super 1 (symbolToken .superKw) (nameToken "m")

def base : Stmt :=
  .classDecl (nameToken "A") none [⟨some (nameToken "m"), [], []⟩]

def derived : Stmt :=
  .classDecl (nameToken "B") (some (.variable 0 (nameToken "A")))
    [⟨some (nameToken "init"), [], [.expression use]⟩]

def creation : Expr :=
  .call (.variable 2 (nameToken "B")) (symbolToken .rightParen) []

def prepared : Prepared (List Stmt) :=
  ⟨[base, derived, .expression creation], ({} : Distances).insert 1 2, 3⟩

def episode : Episode :=
  (Session.start .unlimited 0).episode 4 prepared

def afterBase : Machine :=
  machineOf ((Evaluator.withFuel 4).exec base episode.machine)

def afterDerived : Machine :=
  machineOf ((Evaluator.withFuel 4).exec derived afterBase)

def called : Machine :=
  { afterDerived with depth := afterDerived.depth + 1 }

def created : Machine :=
  machineOf (Run.newInstance 1 called)

def bound : Machine :=
  machineOf (Evaluator.bindMethod 1 0 created)

def inside : Machine :=
  { machineOf (Run.newScope {} 2 bound) with scope := 3 }

theorem prepares : prepareProgram 0 source = .ok prepared := by cbv

theorem comesTo_creation : episode.ComesFirstTo ⟨4, .stmt (.expression creation), afterDerived⟩ := by
  have first : (Evaluator.withFuel 4).exec base episode.machine = .ok .normal afterBase := by cbv
  have second : (Evaluator.withFuel 4).exec derived afterBase = .ok .normal afterDerived := by cbv
  refine ⟨rfl, .bind_ok (.exec base) first (.bind_ok (.exec derived) second ?_)⟩
  exact .bind (.task (.stmt (.expression creation)))

theorem comesTo_body : Moment.Part ⟨2, .stmt (.expression use), inside⟩
    ⟨3, .expr creation, afterDerived⟩ := by
  have callee : (Evaluator.withFuel 2).eval (.variable 2 (nameToken "B")) afterDerived =
      .ok (.classRef 1) afterDerived := by cbv
  have arity : afterDerived.heap.arity (.classRef 1) = 0 := by cbv
  have shallow : afterDerived.depth < afterDerived.maxDepth := by cbv
  have creates : Run.newInstance 1 called = .ok 0 created := by cbv
  have found : created.heap.findMethod? 1 initializerName = some 1 := by cbv
  have binds : Evaluator.bindMethod 1 0 created = .ok 2 bound := by cbv
  have closure : bound.heap.closures[2]? =
      some ⟨⟨some (nameToken "init"), [], [.expression use]⟩, 2, true⟩ := by cbv
  have opens : Run.newScope {} 2 bound = .ok 3 { inside with scope := bound.scope } := by cbv
  have initializes : ComesTo (fun ev => ev.construct 1 [] 1) (.withFuel 2) called
      (.stmt (.expression use)) inside := by
    refine .const_bind creates (.ask_bind (congrArg Except.ok found) (.const_bind binds (.bind ?_)))
    refine .object_bind closure (.ask_bind rfl (.const_bind opens (.bind (.inScope ?_))))
    exact .bind (.task (.stmt (.expression use)))
  refine ⟨rfl, .bind_ok (.eval _) callee (.const_bind rfl ?_)⟩
  exact .ask_bind (congrArg Except.ok arity) (.oneDeeper shallow initializes)

theorem path : episode.Path [⟨1, .expr use, inside⟩, ⟨2, .stmt (.expression use), inside⟩,
    ⟨3, .expr creation, afterDerived⟩, ⟨4, .stmt (.expression creation), afterDerived⟩] := by
  refine .part (.part (.part (.first comesTo_creation) ⟨rfl, ?_⟩) comesTo_body) ⟨rfl, ?_⟩
  · exact .bind (.task (.expr creation))
  · exact .bind (.task (.expr use))

theorem super_lexical_inheriting :
    episode.Path [⟨1, .expr use, inside⟩, ⟨2, .stmt (.expression use), inside⟩,
      ⟨3, .expr creation, afterDerived⟩, ⟨4, .stmt (.expression creation), afterDerived⟩] ∧
    ∃ t c i, inside.heap.value? t "super" = some (.classRef c) ∧ episode.Opens t c derived ∧
      (Evaluator.withFuel 1).eval use inside =
        match inside.heap.findMethod? c "m" with
        | some f => (Value.function <$> Evaluator.bindMethod f i) inside
        | none => Run.failAt 1 (.undefinedProperty "m") inside := by
  have reached : (Session.start .unlimited 0).Reached [] := .start .unlimited 0 256
  have site : (1, derived) ∈ superSitesIn [episode] := List.mem_cons_self
  obtain ⟨_, _, _, _, _, _, t, _, c, i, _, _, _, _, super, ⟨k, mem, opens⟩, result⟩ :=
    (reached.super_lexical prepares 4).1 0 1 _ _ inside _ derived path site
  cases List.mem_singleton.mp mem
  exact ⟨path, t, c, i, super, opens, result⟩

end Inheriting

end Quill
