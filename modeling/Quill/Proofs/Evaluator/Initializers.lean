import Quill.Proofs.Evaluator.Declaring
import Quill.Proofs.Evaluator.Progress
import Quill.Proofs.Heap.Intact

set_option autoImplicit false

namespace Quill

theorem Run.of_bind_ok {α β : Type} {x : Run α} {f : α → Run β} {m m' : Machine} {b : β}
    (done : (x >>= f) m = .ok b m') : ∃ a m₁, x m = .ok a m₁ ∧ f a m₁ = .ok b m' := by
  rcases bind_cases done with first | ⟨halt, m₁, -, failed⟩
  · exact first
  · cases failed

theorem Run.of_object_bind_ok {α β : Type} {p : Heap → Option α} {f : α → Run β} {m m' : Machine}
    {b : β} (done : (object p >>= f) m = .ok b m') :
    ∃ a, p m.heap = some a ∧ f a m = .ok b m' := by
  rw [Lawful.object_bind_eq] at done
  cases found : p m.heap with
  | none =>
    rw [found] at done
    cases done
  | some a =>
    rw [found] at done
    exact ⟨a, rfl, done⟩

theorem Run.of_ask_ok {α : Type} {f : Machine → Except Error α} {m m' : Machine} {a : α}
    (done : ask f m = .ok a m') : f m = .ok a ∧ m = m' := by
  unfold ask at done
  cases found : f m with
  | error e =>
    rw [found] at done
    cases done
  | ok a' =>
    rw [found] at done
    cases done
    exact ⟨rfl, rfl⟩

theorem Run.of_ask_bind_ok {α β : Type} {g : Machine → Except Error α} {f : α → Run β}
    {m m' : Machine} {b : β} (done : (ask g >>= f) m = .ok b m') :
    ∃ a, g m = .ok a ∧ f a m = .ok b m' := by
  obtain ⟨a, m₁, asked, rest⟩ := of_bind_ok done
  obtain ⟨found, rfl⟩ := of_ask_ok asked
  exact ⟨a, found, rest⟩

namespace Heap

variable {h h' : Heap}

def Labelled (h : Heap) : Prop :=
  ∀ (c : ClassId) cls, h.classes[c]? = some cls → h.Labels cls.methods

theorem Gains.labelled {s : ScopeId} {names : List String} (gains : h.Gains s names h')
    (labelled : h.Labelled) : h'.Labelled := by
  intro c cls found
  rcases gains.classes c cls found with old | labels
  · exact (labelled c cls old).mono gains.closures
  · exact labels

theorem owned_of_findMethod? {c : ClassId} {name : String} {method : FunctionId}
    (found : h.findMethod? c name = some method) :
    ∃ (c' : ClassId) (cls : Class), h.classes[c']? = some cls ∧
      cls.methods.find? name = some method := by
  fun_induction findMethod? h c name with
  | case1 | case3 | case5 => cases found
  | case2 c cls here method' own =>
    cases found
    exact ⟨c, cls, here, own⟩
  | case4 c cls _ _ p _ _ ih => exact ih found

theorem Labelled.initializer (labelled : h.Labelled) {c : ClassId} {method : FunctionId}
    (found : h.findMethod? c initializerName = some method) :
    ∃ closure, h.closures[method]? = some closure ∧ closure.isInitializer = true := by
  obtain ⟨c', cls, here, own⟩ := owned_of_findMethod? found
  obtain ⟨closure, there, kind⟩ := labelled c' cls here initializerName method own
  exact ⟨closure, there, kind.trans (beq_self_eq_true _)⟩

theorem getAt_here {s : ScopeId} {name : String} {v : Value} (found : h.value? s name = some v)
    (line : Nat) : h.getAt s 0 name line = .ok v := by
  unfold getAt slotAt
  simp only [ancestor?, slotIn?_of_value? found]
  rfl

/-- An initializer that is bound to an instance. -/
def Initializes (h : Heap) (f : FunctionId) (i : InstanceId) : Prop :=
  ∃ closure, h.closures[f]? = some closure ∧ closure.isInitializer = true ∧
    h.value? closure.scope "this" = some (.instanceRef i)

theorem Grows.initializes (grows : h.Grows h') {f : FunctionId} {i : InstanceId}
    (bound : h.Initializes f i) : h'.Initializes f i := by
  obtain ⟨closure, found, kind, this⟩ := bound
  exact ⟨closure, grows.closures f closure found, kind, grows.words _ _ _ (.inl rfl) this⟩

end Heap

theorem Run.Tame.becomes {α : Type} {x : Run α} {m m' : Machine} {a : α} (tame : Tame x)
    (tidy : m.heap.Tidy) (done : x m = .ok a m') : m.heap.Becomes m'.heap := by
  have becomes := tame m tidy
  rw [done] at becomes
  exact becomes

theorem Dialogic.becomes {α : Type} {P : Prop} {x : Evaluator → Run α} {ev : Evaluator}
    {m m' : Machine} {a : α} (dialogic : Dialogic ev.rounds P x) (holds : P) (answers : ev.Orderly)
    (tidy : m.heap.Tidy) (done : x ev m = .ok a m') : m.heap.Becomes m'.heap := by
  have becomes := Proceeds.whole.becomes dialogic holds answers tidy
  rw [done] at becomes
  exact becomes

namespace Evaluator

variable {ev : Evaluator} {m m' : Machine} {v : Value}

theorem bindMethod_initializes {method f : FunctionId} {i : InstanceId} {closure : Closure}
    (found : m.heap.closures[method]? = some closure) (kind : closure.isInitializer = true)
    (done : bindMethod method i m = .ok f m') : m'.heap.Initializes f i := by
  obtain ⟨closure', found', done⟩ := Run.of_object_bind_ok done
  rw [found] at found'
  cases found'
  cases done
  refine ⟨{ closure with scope := m.heap.scopes.size }, Array.getElem?_push_size, kind, ?_⟩
  change (m.heap.addScope _).value? m.heap.scopes.size "this" = _
  rw [Heap.value?_addScope, if_pos rfl]
  exact (Bindings.find?_insert ..).trans (if_pos rfl)

theorem boundMethod_initializes (labelled : m.heap.Labelled) {c : ClassId} {i : InstanceId}
    {name : Token} (initializer : name.lexeme = initializerName)
    (done : (match m.heap.findMethod? c name.lexeme with
      | some method => Value.function <$> bindMethod method i
      | none => Run.failAt name.line (.undefinedProperty name.lexeme)) m = .ok v m') :
    ∃ f, v = .function f ∧ m'.heap.Initializes f i := by
  rw [initializer] at done
  cases found : m.heap.findMethod? c initializerName with
  | none =>
    rw [found] at done
    cases done
  | some method =>
    rw [found] at done
    dsimp only at done
    rw [map_eq_pure_bind] at done
    obtain ⟨f, m₂, bound, done⟩ := Run.of_bind_ok done
    cases done
    obtain ⟨closure, there, kind⟩ := labelled.initializer found
    exact ⟨f, rfl, bindMethod_initializes there kind bound⟩

theorem property_initializes (labelled : m.heap.Labelled) {i : InstanceId} {name : Token}
    (initializer : name.lexeme = initializerName) (noField : m.heap.field? i initializerName = none)
    (done : property i name m = .ok v m') : ∃ f, v = .function f ∧ m'.heap.Initializes f i := by
  obtain ⟨o, found, done⟩ := Run.of_object_bind_ok done
  have none : o.fields.find? name.lexeme = none := by
    unfold Heap.field? at noField
    rw [found] at noField
    rw [initializer]
    exact noField
  rw [none] at done
  obtain ⟨method, same, done⟩ := Run.of_ask_bind_ok done
  cases same
  exact boundMethod_initializes labelled initializer done

theorem evalSuper_initializes (labelled : m.heap.Labelled) {id : RefId} {keyword method : Token}
    {c : ClassId} {i : InstanceId} (initializer : method.lexeme = initializerName)
    (here : superBindings id keyword m = .ok (c, i))
    (done : evalSuper id keyword method m = .ok v m') :
    ∃ f, v = .function f ∧ m'.heap.Initializes f i := by
  obtain ⟨_, found, done⟩ := Run.of_ask_bind_ok done
  rw [here] at found
  cases found
  obtain ⟨found, same, done⟩ := Run.of_ask_bind_ok done
  cases same
  exact boundMethod_initializes labelled initializer done

theorem callClosure_initializer (answers : ev.Orderly) (tidy : m.heap.Tidy) {f : FunctionId}
    {i : InstanceId} (bound : m.heap.Initializes f i) {arguments : List Value} {line : Nat}
    (done : ev.callClosure f arguments line m = .ok v m') : v = .instanceRef i := by
  obtain ⟨closure, found, kind, this⟩ := bound
  obtain ⟨closure', found', done⟩ := Run.of_object_bind_ok done
  rw [found] at found'
  cases found'
  obtain ⟨vars, -, done⟩ := Run.of_ask_bind_ok done
  obtain ⟨scope, m₁, opened, done⟩ := Run.of_bind_ok done
  have opens := (Run.Tame.newScope vars closure.scope).becomes tidy opened
  obtain ⟨flow, m₂, ran, done⟩ := Run.of_bind_ok done
  have body : WellFormedStmts closure.code.body := (tidy.1 f closure found).body
  have runs := (Dialogic.inScope scope (.sequence _)).becomes body answers opens.tidy ran
  -- On all of the way `this` is what it was when the initializer was bound.
  have this' : m₂.heap.value? closure.scope "this" = some (.instanceRef i) :=
    (opens.trans runs).grows.words _ _ _ (.inl rfl) this
  have given (value : Value) (done : giveResult closure line value m₂ = .ok v m') :
      v = .instanceRef i := by
    unfold giveResult at done
    rw [if_pos kind] at done
    obtain ⟨got, -⟩ := Run.of_ask_ok done
    rw [Heap.getAt_here this'] at got
    cases got
    rfl
  cases flow with
  | normal => exact given .nil done
  | returned value => exact given value done
  | broke => cases done

theorem construct_instance (answers : ev.Orderly) (tidy : m.heap.Tidy) {c : ClassId}
    {arguments : List Value} {line : Nat} (done : ev.construct c arguments line m = .ok v m') :
    v = .instanceRef m.heap.instances.size ∧
      ∃ o, m'.heap.instances[m.heap.instances.size]? = some o ∧ o.classId = c := by
  obtain ⟨i, m₁, created, done⟩ := Run.of_bind_ok done
  -- Whatever the initializer does, the instance stays, as all objects do.
  have creates := (Run.Tame.newInstance c).becomes tidy created
  have new : i = m.heap.instances.size ∧ m₁.heap.instances[i]? = some ⟨c, {}⟩ := by
    cases created
    exact ⟨rfl, Array.getElem?_push_size⟩
  obtain ⟨found, -, done⟩ := Run.of_ask_bind_ok done
  suffices rest : v = .instanceRef i ∧ m₁.heap.Grows m'.heap by
    obtain ⟨given, grows⟩ := rest
    rw [given, ← new.1]
    exact ⟨rfl, grows.instances i _ new.2⟩
  cases found with
  | none =>
    cases done
    exact ⟨rfl, .refl _⟩
  | some method =>
    obtain ⟨f, m₂, bound, done⟩ := Run.of_bind_ok done
    have binds := (Run.Tame.bindMethod method i).becomes creates.tidy bound
    obtain ⟨_, m₃, called, done⟩ := Run.of_bind_ok done
    have calls := (Dialogic.callClosure (P := True) f arguments line).becomes trivial answers
      binds.tidy called
    cases done
    exact ⟨rfl, (binds.trans calls).grows⟩

theorem evalCall_evaluated {callee : Expr} {es : List Expr} {f : Value} {m₁ m₂ : Machine}
    {callable : Callable} {values : List Value} (found : ev.eval callee m = .ok f m₁)
    (fits : f.callable? = some callable) (given : ev.evalAll es [] m₁ = .ok values m₂)
    (paren : Token) :
    ev.evalCall callee paren es m =
      if values.length = m₂.heap.arity callable then
        Run.oneDeeper paren.line (ev.invokeRule callable values paren.line) m₂
      else Run.failAt paren.line (.wrongArity (m₂.heap.arity callable) values.length) m₂ := by
  unfold evalCall
  rw [Run.bind_of_ok found, Run.bind_of_ok given, fits]
  refine (Run.bind_of_ok rfl).trans ?_
  split <;> rfl

end Evaluator

theorem Dialogue.Orderly.cut_heap {α : Type} {d : Dialogue α} {h : Heap} {ev : Evaluator}
    {t : Task} {m : Machine} (orderly : d.Orderly h) (answers : ev.Orderly) (asks : d.Asks ev t m)
    (halt : Halt) (m' : Machine) : (machineOf (d.run (ev.cut t m halt m'))).heap = m'.heap := by
  induction asks generalizing h with
  | here t m restore next =>
    obtain ⟨-, -, restores, -⟩ := orderly
    unfold run
    rw [Evaluator.answer_cut_self]
    exact restores m'
  | @later t₁ t m₁ m _ restore next a answer asks ih =>
    obtain ⟨wf, own, restores, answered⟩ := orderly
    have given := answers t₁ wf m₁ own.tidy
    rw [answer] at given
    unfold run
    by_cases same : t₁ = t ∧ m₁ = m
    · obtain ⟨rfl, rfl⟩ := same
      rw [Evaluator.answer_cut_self]
      exact restores m'
    · rw [Evaluator.answer_cut_of_ne same, answer]
      exact ih (answered a _ given.tidy)

theorem ComesTo.gains {α : Type} {P : Prop} {x : Evaluator → Run α} {ev : Evaluator} {t : Task}
    {m m₁ : Machine} {names : List String} (comes : ComesTo x ev m t m₁)
    (dialogic : Dialogic ev.rounds P x) (holds : P) (answers : ev.Orderly) (tidy : m.heap.Tidy)
    (own : ev.Confined Realm.whole.toRegion)
    (confined : ∀ ev', ev'.Confined Realm.whole.toRegion →
      Run.Confined Realm.whole.toRegion names (x ev')) :
    m.heap.Gains m.scope names m₁.heap := by
  obtain ⟨d, same, orderly⟩ := dialogic
  have asks := (comesTo_iff_asks (fun ev' fuel => same ev' fuel m) t m₁).mp comes
  have heap := (orderly holds m tidy).cut_heap answers asks .outOfFuel m₁
  -- A run that is cut short where it comes to the part has declared only what the run may.
  have cut : (ev.cut t m₁ .outOfFuel m₁).Confined Realm.whole.toRegion := by
    intro t' within m' here
    by_cases this : t' = t ∧ m' = m₁
    · obtain ⟨rfl, rfl⟩ := this
      rw [Evaluator.answer_cut_self]
      exact (Run.Confined.outOfFuel (α := t'.Result)).mono (List.nil_subset _) m' here
    · rw [Evaluator.answer_cut_of_ne this]
      exact own t' within m' here
  have gains := (confined _ cut m (Realm.whole_holds tidy.2)).gains Realm.whole_quiet
  rw [same (ev.cut t m₁ .outOfFuel m₁) rfl, heap] at gains
  exact gains

end Quill
