import Quill.Proofs.Evaluator.Tidy

set_option autoImplicit false

namespace Quill

namespace Heap

structure Undisturbed (h h' : Heap) : Prop where
  fields : ∀ i x, h'.field? i x = h.field? i x
  classes : h'.classes = h.classes
  closures : ∀ (i : FunctionId) c, h.closures[i]? = some c → h'.closures[i]? = some c

namespace Undisturbed

variable {h h' h'' : Heap}

theorem refl (h : Heap) : h.Undisturbed h :=
  ⟨fun _ _ => rfl, rfl, fun _ _ found => found⟩

theorem trans (first : h.Undisturbed h') (second : h'.Undisturbed h'') : h.Undisturbed h'' :=
  ⟨fun i x => (second.fields i x).trans (first.fields i x), second.classes.trans first.classes,
    fun i c found => second.closures i c (first.closures i c found)⟩

theorem of_scopes (h : Heap) (scopes : Array Scope) : h.Undisturbed { h with scopes := scopes } :=
  ⟨fun _ _ => rfl, rfl, fun _ _ found => found⟩

theorem addClosure (h : Heap) (closure : Closure) : h.Undisturbed (h.addClosure closure) :=
  ⟨fun _ _ => rfl, rfl, fun _ _ found => getElem?_push_old found⟩

end Undisturbed

theorem field?_addInstance (h : Heap) (c : ClassId) (i : InstanceId) (x : String) :
    (h.addInstance ⟨c, {}⟩).field? i x = h.field? i x := by
  unfold field? addInstance
  rw [Array.getElem?_push]
  by_cases new : i = h.instances.size
  · subst new
    simp only [if_true, Array.getElem?_size]
    rfl
  · simp only [new, if_false]

end Heap

namespace Run

def Calm {α : Type} (x : Run α) : Prop :=
  ∀ m : Machine, m.heap.Undisturbed (machineOf (x m)).heap

namespace Calm

variable {α β : Type} {x : Run α}

theorem of_same (same : ∀ m, (machineOf (x m)).heap = m.heap) : Calm x := by
  intro m
  rw [same m]
  exact .refl m.heap

theorem pure (a : α) : Calm (Pure.pure a : Run α) :=
  .of_same fun _ => rfl

theorem fail (e : Error) : Calm (Run.fail e : Run α) :=
  .of_same fun _ => rfl

theorem outOfFuel : Calm (Run.outOfFuel : Run α) :=
  .of_same fun _ => rfl

theorem ask (f : Machine → Except Error α) : Calm (Run.ask f) := by
  refine .of_same fun m => ?_
  unfold Run.ask
  cases f m <;> rfl

theorem object (f : Heap → Option α) : Calm (Run.object f) := by
  refine .of_same fun m => ?_
  unfold Run.object
  cases f m.heap <;> rfl

theorem currentScope : Calm Run.currentScope :=
  .of_same fun _ => rfl

theorem readRef (id : RefId) (name : Token) : Calm (Run.readRef id name) := by
  refine .of_same fun m => ?_
  unfold Run.readRef
  cases slotOf m id name <;> rfl

theorem bind {f : α → Run β} (first : Calm x) (next : ∀ a, Calm (f a)) : Calm (x >>= f) := by
  intro m
  have done := first m
  rw [bind_eq_match]
  cases result : x m with
  | ok a m' =>
    rw [result] at done
    exact done.trans (next a m')
  | error halt m' =>
    rw [result] at done
    exact done

theorem map (f : α → β) (first : Calm x) : Calm (f <$> x) := by
  rw [map_eq_pure_bind]
  exact first.bind fun a => .pure (f a)

theorem newScope (vars : Bindings Value) (parent : ScopeId) : Calm (Run.newScope vars parent) :=
  fun m => .of_scopes m.heap _

theorem newClosure (closure : Closure) : Calm (Run.newClosure closure) :=
  fun m => .addClosure m.heap closure

theorem newInstance (c : ClassId) : Calm (Run.newInstance c) :=
  fun m => ⟨m.heap.field?_addInstance c, rfl, fun _ _ found => found⟩

theorem define (name : Token) (value : Value) : Calm (Run.define name value) := by
  intro m
  unfold Run.define
  split
  next => exact .refl m.heap
  next => exact .of_scopes m.heap _

theorem writeRef (id : RefId) (name : Token) (value : Value) :
    Calm (Run.writeRef id name value) := by
  intro m
  unfold Run.writeRef
  split
  next => exact .refl m.heap
  next => exact .of_scopes m.heap _

theorem bindMethod (method : FunctionId) (i : InstanceId) :
    Calm (Evaluator.bindMethod method i) :=
  (object _).bind fun _ => (newScope _ _).bind fun _ => newClosure _

theorem gentle : Gentle @Calm where
  pure := pure
  fail _ := fail _
  object := object
  ask _ := ask _
  bindMethod := bindMethod
  bind := bind

theorem evalFunction (f : Function) : Calm (Evaluator.evalFunction f) :=
  currentScope.bind fun _ => (newClosure _).map _

theorem execFunction (f : Function) : Calm (Evaluator.execFunction f) := by
  unfold Evaluator.execFunction
  cases f.name with
  | none => exact fail _
  | some name =>
    refine currentScope.bind fun _ => (newClosure _).bind fun id => ?_
    exact (define name _).bind fun _ => pure _

end Calm

end Run

end Quill
