import Quill.Evaluator

set_option autoImplicit false

namespace Quill

def Error.Ordinary : Error → Prop
  | .runtime fault _ => ∀ name, fault ≠ .redefined name
  | .internal _ => True
  | _ => False

section Ordinary

variable {e : Error} {line : Nat}

theorem Heap.slot_ordinary {h : Heap} {s : ScopeId} {name : String}
    (failed : h.slot s name line = .error e) : e.Ordinary := by
  unfold slot at failed
  split at failed <;> cases failed
  exact fun _ same => by cases same

theorem Heap.slotAt_ordinary {h : Heap} {s : ScopeId} {d : Nat} {name : String}
    (failed : h.slotAt s d name line = .error e) : e.Ordinary := by
  unfold slotAt at failed
  split at failed
  · cases failed
    trivial
  · split at failed <;> cases failed
    trivial

theorem Heap.getAt_ordinary {h : Heap} {s : ScopeId} {d : Nat} {name : String}
    (failed : h.getAt s d name line = .error e) : e.Ordinary := by
  unfold getAt at failed
  cases result : h.slotAt s d name line with
  | ok slot =>
    rw [result] at failed
    cases failed
  | error e' =>
    rw [result] at failed
    cases failed
    exact slotAt_ordinary result

theorem Run.slotOf_ordinary {m : Machine} {id : RefId} {name : Token}
    (failed : slotOf m id name = .error e) : e.Ordinary := by
  unfold slotOf at failed
  split at failed
  · exact Heap.slotAt_ordinary failed
  · exact Heap.slot_ordinary failed

theorem Operator.unary_ordinary {operator : Token} {v : Value}
    (failed : unary operator v = .error e) : e.Ordinary := by
  unfold unary at failed
  split at failed
  · split at failed <;> cases failed
    exact fun _ same => by cases same
  · cases failed
  · cases failed
    trivial

theorem Operator.onNumbers_ordinary {f : Float → Float → Value} {a b : Value}
    (failed : onNumbers line f a b = .error e) : e.Ordinary := by
  unfold onNumbers at failed
  split at failed <;> cases failed
  exact fun _ same => by cases same

theorem Operator.add_ordinary {h : Heap} {a b : Value}
    (failed : add h line a b = .error e) : e.Ordinary := by
  unfold add at failed
  split at failed <;> cases failed
  exact fun _ same => by cases same

theorem Operator.binary_ordinary {h : Heap} {operator : Token} {a b : Value}
    (failed : binary h operator a b = .error e) : e.Ordinary := by
  unfold binary at failed
  split at failed
  · exact add_ordinary failed
  all_goals first | exact onNumbers_ordinary failed | cases failed
  trivial

theorem Evaluator.superBindings_ordinary {id : RefId} {keyword : Token} {m : Machine}
    (failed : superBindings id keyword m = .error e) : e.Ordinary := by
  unfold superBindings at failed
  split at failed
  · cases failed
    trivial
  · cases failed
    trivial
  next d _ =>
    cases above : m.heap.getAt m.scope (d + 1) "super" keyword.line with
    | error e' =>
      rw [above] at failed
      cases failed
      exact Heap.getAt_ordinary above
    | ok v =>
      rw [above] at failed
      cases v with
      | classRef c =>
        cases here : m.heap.getAt m.scope d "this" keyword.line with
        | error e' =>
          simp only [here] at failed
          cases failed
          exact Heap.getAt_ordinary here
        | ok v =>
          simp only [here] at failed
          cases v <;> cases failed <;> trivial
      | _ =>
        cases failed
        trivial

end Ordinary

namespace Run

structure Gentle (P : {α : Type} → Run α → Prop) : Prop where
  pure : ∀ {α : Type} (a : α), P (Pure.pure a : Run α)
  fail : ∀ {α : Type} {e : Error}, e.Ordinary → P (Run.fail e : Run α)
  object : ∀ {α : Type} (f : Heap → Option α), P (Run.object f)
  ask : ∀ {α : Type} {f : Heap → Except Error α}, (∀ h e, f h = .error e → e.Ordinary) →
    P (Run.ask fun m => f m.heap)
  bindMethod : ∀ method i, P (Evaluator.bindMethod method i)
  bind : ∀ {α β : Type} {x : Run α} {f : α → Run β}, P x → (∀ a, P (f a)) → P (x >>= f)

namespace Gentle

variable {P : {α : Type} → Run α → Prop}

theorem map {α β : Type} {x : Run α} (gentle : Gentle P) (f : α → β) (first : P x) :
    P (f <$> x) := by
  rw [map_eq_pure_bind]
  exact gentle.bind first fun a => gentle.pure (f a)

theorem findMethod (gentle : Gentle P) (c : ClassId) (name : String) :
    P (Run.ask fun m => .ok (m.heap.findMethod? c name)) :=
  gentle.ask (f := fun h => .ok (h.findMethod? c name)) fun _ _ failed => by cases failed

theorem resultOf (gentle : Gentle P) (closure : Closure) (line : Nat) (flow : Flow) :
    P (Evaluator.resultOf closure line flow) := by
  have given (value : Value) : P (Evaluator.giveResult closure line value) := by
    unfold Evaluator.giveResult
    split
    · exact gentle.ask (f := fun h => h.getAt closure.scope 0 "this" line)
        fun _ _ => Heap.getAt_ordinary
    · exact gentle.pure value
  cases flow with
  | normal | returned _ => exact given _
  | broke => exact gentle.fail trivial

theorem boundMethod (gentle : Gentle P) (found : Option FunctionId) (i : InstanceId)
    (name : Token) :
    P (match found with
      | some method => Value.function <$> Evaluator.bindMethod method i
      | none => Run.failAt name.line (.undefinedProperty name.lexeme)) := by
  cases found with
  | none => exact gentle.fail fun _ same => by cases same
  | some method => exact gentle.map _ (gentle.bindMethod method i)

theorem property (gentle : Gentle P) (i : InstanceId) (name : Token) :
    P (Evaluator.property i name) := by
  refine gentle.bind (gentle.object _) fun o => ?_
  cases o.fields.find? name.lexeme with
  | some v => exact gentle.pure v
  | none => exact gentle.bind (gentle.findMethod _ _) fun found => gentle.boundMethod found i name

theorem evalSuper (gentle : Gentle P) {id : RefId} {keyword : Token}
    (asked : P (Run.ask (Evaluator.superBindings id keyword))) (method : Token) :
    P (Evaluator.evalSuper id keyword method) :=
  gentle.bind asked fun (_, i) =>
    gentle.bind (gentle.findMethod _ _) fun found => gentle.boundMethod found i method

end Gentle

end Run

end Quill
