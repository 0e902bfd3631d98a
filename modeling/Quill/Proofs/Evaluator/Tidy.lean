import Quill.Proofs.Evaluator.Lookups
import Quill.Proofs.Heap.Growth
import Quill.Proofs.Tree.WellFormed

set_option autoImplicit false

namespace Quill

def machineOf {α : Type} : EStateM.Result Halt Machine α → Machine
  | .ok _ m | .error _ m => m

theorem Token.Plain.not_reserved {t : Token} (plain : t.Plain) : ¬ Heap.Reserved t.lexeme :=
  fun reserved => reserved.elim plain.1 plain.2

namespace Heap

def Tidy (h : Heap) : Prop :=
  (∀ (i : FunctionId) closure, h.closures[i]? = some closure → closure.code.WellFormed) ∧
    h.Discreet

theorem root_tidy : (empty.addRoot [.clock]).Tidy :=
  ⟨fun _ _ found => (by cases found), discreet_of_clock rfl⟩

structure Becomes (h h' : Heap) : Prop where
  grows : h.Grows h'
  tidy : h'.Tidy

namespace Becomes

variable {h h' h'' : Heap}

theorem refl (tidy : h.Tidy) : h.Becomes h :=
  ⟨.refl h, tidy⟩

theorem trans (first : h.Becomes h') (second : h'.Becomes h'') : h.Becomes h'' :=
  ⟨first.grows.trans second.grows, second.tidy⟩

end Becomes

end Heap

namespace Run

def Tame {α : Type} (x : Run α) : Prop :=
  ∀ m : Machine, m.heap.Tidy → m.heap.Becomes (machineOf (x m)).heap

namespace Tame

variable {α β : Type} {x : Run α}

theorem of_same (same : ∀ m, (machineOf (x m)).heap = m.heap) : Tame x := by
  intro m tidy
  rw [same m]
  exact .refl tidy

theorem pure (a : α) : Tame (Pure.pure a : Run α) :=
  .of_same fun _ => rfl

theorem fail (e : Error) : Tame (Run.fail e : Run α) :=
  .of_same fun _ => rfl

theorem outOfFuel : Tame (Run.outOfFuel : Run α) :=
  .of_same fun _ => rfl

theorem ask (f : Machine → Except Error α) : Tame (Run.ask f) := by
  refine .of_same fun m => ?_
  unfold Run.ask
  cases f m <;> rfl

theorem object (f : Heap → Option α) : Tame (Run.object f) := by
  refine .of_same fun m => ?_
  unfold Run.object
  cases f m.heap <;> rfl

theorem readRef (id : RefId) (name : Token) : Tame (Run.readRef id name) := by
  refine .of_same fun m => ?_
  unfold Run.readRef
  cases slotOf m id name <;> rfl

theorem print (value : Value) : Tame (Run.print value) := by
  refine .of_same fun m => ?_
  unfold Run.print
  simp only
  split <;> rfl

theorem bind {f : α → Run β} (first : Tame x) (next : ∀ a, Tame (f a)) : Tame (x >>= f) := by
  intro m tidy
  have done := first m tidy
  rw [bind_eq_match]
  cases result : x m with
  | ok a m' =>
    rw [result] at done
    exact done.trans (next a m' done.tidy)
  | error halt m' =>
    rw [result] at done
    exact done

theorem map (f : α → β) (first : Tame x) : Tame (f <$> x) := by
  rw [map_eq_pure_bind]
  exact first.bind fun a => .pure (f a)

theorem newScope (vars : Bindings Value) (parent : ScopeId) : Tame (Run.newScope vars parent) :=
  fun m tidy => ⟨m.heap.grows_addScope _, tidy⟩

theorem newClass (c : Class) : Tame (Run.newClass c) :=
  fun m tidy => ⟨m.heap.grows_addClass c, tidy⟩

theorem newInstance (c : ClassId) : Tame (Run.newInstance c) :=
  fun m tidy => ⟨m.heap.grows_addInstance _, tidy⟩

theorem newClosure {closure : Closure} (wf : closure.code.WellFormed) :
    Tame (Run.newClosure closure) := by
  refine fun m tidy => ⟨m.heap.grows_addClosure closure, fun i closure' found => ?_, tidy.2⟩
  rcases Heap.getElem?_push_cases found with old | ⟨-, rfl⟩
  · exact tidy.1 i closure' old
  · exact wf

theorem setField (i : InstanceId) (name : Token) (value : Value) :
    Tame (Run.setField i name value) :=
  fun m tidy => ⟨m.heap.grows_setField i name.lexeme value, tidy⟩

theorem define {name : Token} (plain : name.Plain) (value : Value) :
    Tame (Run.define name value) := by
  intro m tidy
  unfold Run.define
  split
  next => exact .refl tidy
  next => exact ⟨m.heap.grows_write plain.not_reserved, tidy⟩

theorem assignNearest {name : Token} (plain : name.Plain) (value : Value) :
    Tame (Run.assignNearest name value) := by
  intro m tidy
  unfold Run.assignNearest
  split
  next => exact .refl tidy
  next => exact ⟨m.heap.grows_write plain.not_reserved, tidy⟩

theorem writeRef {name : Token} (plain : name.Plain) (id : RefId) (value : Value) :
    Tame (Run.writeRef id name value) := by
  intro m tidy
  unfold Run.writeRef
  split
  next => exact .refl tidy
  next => exact ⟨m.heap.grows_write plain.not_reserved, tidy⟩

theorem bind_closure {f : Closure → Run β} (id : FunctionId)
    (next : ∀ closure, closure.code.WellFormed → Tame (f closure)) :
    Tame (Run.object (·.closures[id]?) >>= f) := by
  intro m tidy
  rw [Run.bind_eq_match]
  unfold Run.object
  cases found : m.heap.closures[id]? with
  | none =>
    simp only [found]
    exact .refl tidy
  | some closure =>
    simp only [found]
    exact next closure (tidy.1 id closure found) m tidy

theorem bindMethod (method : FunctionId) (i : InstanceId) :
    Tame (Evaluator.bindMethod method i) :=
  bind_closure method fun _ wf => (newScope _ _).bind fun _ => newClosure wf

theorem gentle : Gentle @Tame where
  pure := pure
  fail _ := fail _
  object := object
  ask _ := ask _
  bindMethod := bindMethod
  bind := bind

theorem evalFunction {f : Function} (wf : f.WellFormed) : Tame (Evaluator.evalFunction f) :=
  (of_same fun _ => rfl : Tame currentScope).bind fun _ => (newClosure wf).map _

theorem execFunction {f : Function} (plain : ∃ name, f.name = some name ∧ name.Plain)
    (wf : f.WellFormed) : Tame (Evaluator.execFunction f) := by
  obtain ⟨name, named, plain⟩ := plain
  unfold Evaluator.execFunction
  rw [named]
  refine (of_same fun _ => rfl : Tame currentScope).bind fun _ => (newClosure wf).bind fun id => ?_
  exact (define plain _).bind fun _ => pure _

theorem methodScope (parent : Option ClassId) : Tame (Evaluator.methodScope parent) := by
  have current : Tame currentScope := of_same fun _ => rfl
  cases parent with
  | none => exact current
  | some c => exact current.bind fun _ => newScope _ _

theorem methodTable (scope : ScopeId) {methods : List Function} (wf : WellFormedFunctions methods)
    (table : Bindings FunctionId) : Tame (Evaluator.methodTable scope methods table) := by
  induction methods generalizing table with
  | nil => exact pure table
  | cons f methods ih =>
    obtain ⟨head, rest⟩ := wf
    exact (newClosure head).bind fun _ => ih rest _

end Tame

end Run

end Quill
