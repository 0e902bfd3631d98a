import Quill.Proofs.Evaluator.Changes
import Quill.Proofs.Evaluator.Properties

set_option autoImplicit false

namespace Quill

structure Write where
  object : InstanceId
  name : Token
  value : Value

def lastSet? (writes : List Write) (i : InstanceId) (x : String) : Option Value :=
  (writes.reverse.find? fun w => w.object = i ∧ w.name.lexeme = x).map Write.value

theorem lastSet?_append (earlier later : List Write) (i : InstanceId) (x : String) :
    lastSet? (earlier ++ later) i x = (lastSet? later i x).or (lastSet? earlier i x) := by
  simp [lastSet?, List.find?_append, Option.map_or]

theorem lastSet?_concat (writes : List Write) (w : Write) (i : InstanceId) (x : String) :
    lastSet? (writes ++ [w]) i x =
      if w.object = i ∧ w.name.lexeme = x then some w.value else lastSet? writes i x := by
  rw [lastSet?_append]
  by_cases here : w.object = i ∧ w.name.lexeme = x <;> simp [lastSet?, here]

theorem lastSet?_eq_some_iff {writes : List Write} {i : InstanceId} {x : String} {v : Value} :
    lastSet? writes i x = some v ↔ ∃ earlier name later,
      writes = earlier ++ ⟨i, name, v⟩ :: later ∧ name.lexeme = x ∧
        ∀ w ∈ later, ¬ (w.object = i ∧ w.name.lexeme = x) := by
  unfold lastSet?
  simp only [Option.map_eq_some_iff, List.find?_eq_some_iff_append]
  constructor
  · rintro ⟨⟨j, name, w⟩, ⟨here, later, earlier, same, others⟩, rfl⟩
    obtain ⟨rfl, named⟩ : j = i ∧ name.lexeme = x := by simpa using here
    refine ⟨earlier.reverse, name, later.reverse, ?_, named, by simpa [← not_and_or] using others⟩
    rw [← List.reverse_reverse writes, same]
    simp
  · rintro ⟨earlier, name, later, rfl, rfl, others⟩
    refine ⟨⟨i, name, v⟩, ⟨by simp, later.reverse, earlier.reverse, by simp, ?_⟩, rfl⟩
    simpa [← not_and_or] using others

namespace Heap

theorem field?_setField_of_ne {h : Heap} {i j : InstanceId} (other : j ≠ i) (y : String)
    (v : Value) (x : String) : (h.setField j y v).field? i x = h.field? i x := by
  unfold field?
  rw [instances_setField, if_neg other]

theorem field?_setField {h : Heap} {i j : InstanceId} (has : h.Has (.instanceRef i)) (y : String)
    (v : Value) (x : String) :
    (h.setField j y v).field? i x = if j = i ∧ y = x then some v else h.field? i x := by
  by_cases same : j = i
  · subst same
    unfold field?
    rw [instances_setField, Array.getElem?_eq_getElem has]
    by_cases named : y = x
    · simp [named, Bindings.find?_insert]
    · simp [named, Ne.symm named, Bindings.find?_insert]
  · simp [same, field?_setField_of_ne]

/-- One heap comes from another by what happens at certain moments: fields are set there, and
classes are made. Besides that nothing happens to fields and classes. -/
inductive Traces (P : Moment → Prop) (h : Heap) : List Write → Heap → Prop where
  | start : Traces P h [] h
  | calm {writes : List Write} {h₁ h₂ : Heap} :
      Traces P h writes h₁ → h₁.Undisturbed h₂ → Traces P h writes h₂
  | set {writes : List Write} {a : Moment} {i : InstanceId} {name : Token} {v : Value}
      {m : Machine} : Traces P h writes m.heap → P a → a.Sets i name v m →
      m.heap.Has (.instanceRef i) →
      Traces P h (writes ++ [⟨i, name, v⟩]) (m.heap.setField i name.lexeme v)
  | made {writes : List Write} {a : Moment} {name : Token} {parent : Option ClassId}
      {methods : List Function} {m : Machine} : Traces P h writes m.heap → P a →
      a.Makes name parent methods m →
      Traces P h writes (machineOf (Evaluator.buildClass name parent methods m)).heap

def MadeAt (P : Moment → Prop) (h : Heap) (c : ClassId) : Prop :=
  ∃ a name parent methods m, P a ∧ a.Makes name parent methods m ∧
    h.Declares c name.lexeme parent methods

theorem MadeAt.mono {P : Moment → Prop} {h h' : Heap} {c : ClassId} (made : h.MadeAt P c)
    (closures : ∀ (i : FunctionId) c, h.closures[i]? = some c → h'.closures[i]? = some c)
    (classes : ∀ (c : ClassId) cls, h.classes[c]? = some cls → h'.classes[c]? = some cls) :
    h'.MadeAt P c := by
  obtain ⟨a, name, parent, methods, m, there, makes, declares⟩ := made
  exact ⟨a, name, parent, methods, m, there, makes, declares.mono closures classes⟩

namespace Traces

variable {P : Moment → Prop} {h h' h'' : Heap} {writes later : List Write}

theorem trans (first : h.Traces P writes h') (second : h'.Traces P later h'') :
    h.Traces P (writes ++ later) h'' := by
  induction second with
  | start => rwa [List.append_nil]
  | calm _ undisturbed ih => exact ih.calm undisturbed
  | set _ there sets has ih =>
    rw [← List.append_assoc]
    exact ih.set there sets has
  | made _ there makes ih => exact ih.made there makes

theorem field? (traces : h.Traces P writes h') (i : InstanceId) (x : String) :
    h'.field? i x = (lastSet? writes i x).or (h.field? i x) := by
  induction traces with
  | start => rfl
  | calm _ undisturbed ih => rw [undisturbed.fields, ih]
  | @set _ _ j name v m _ _ _ has ih =>
    rw [lastSet?_concat]
    -- An instance that is not asked for need not be there.
    by_cases same : j = i
    · subst same
      rw [field?_setField has, ih]
      split <;> rfl
    · rw [field?_setField_of_ne same, ih]
      simp [same]
  | @made _ _ name parent methods m _ _ _ ih =>
    have gets := Evaluator.machineOf_buildClass name parent methods m
    unfold Heap.field?
    rw [gets.instances]
    exact ih

theorem madeAt (traces : h.Traces P writes h') {c : ClassId} (new : h.classes.size ≤ c)
    (there : c < h'.classes.size) : h'.MadeAt P c := by
  induction traces with
  | start => exact absurd there (Nat.not_lt_of_le new)
  | calm _ undisturbed ih =>
    rw [undisturbed.classes] at there
    refine (ih there).mono undisturbed.closures fun c cls found => ?_
    rw [undisturbed.classes]
    exact found
  | set _ _ _ _ ih => exact (ih there).mono (fun _ _ found => found) fun _ _ found => found
  | @made _ a name parent methods m _ here makes ih =>
    have gets := Evaluator.machineOf_buildClass name parent methods m
    obtain ⟨cls, classes⟩ := gets.classes
    rw [classes, Array.size_push] at there
    -- Classes have the numbers they come in, so the last one is the one just made.
    rcases Nat.lt_succ_iff_lt_or_eq.mp there with old | rfl
    · refine (ih old).mono gets.closures fun c cls' found => ?_
      rw [classes]
      exact getElem?_push_old found
    · exact ⟨a, name, parent, methods, m, here, makes, gets.declares⟩

end Traces

theorem Founded.descends {P : Moment → Prop} {h : Heap} (founded : h.Founded)
    (made : ∀ c < h.classes.size, h.MadeAt P c) (c : ClassId) (there : c < h.classes.size) :
    ∃ chain, h.Descends c chain := by
  -- On the number of the class, since its superclass has a smaller one.
  induction c using Nat.strongRecOn with
  | _ c ih =>
    obtain ⟨_, name, parent, methods, _, -, -, declares⟩ := made c there
    cases parent with
    | none => exact ⟨[methods], .root declares⟩
    | some p =>
      have ⟨_, _, found, _⟩ := declares
      have older := founded c _ p found rfl
      obtain ⟨chain, descends⟩ := ih p older (Nat.lt_trans older there)
      exact ⟨methods :: chain, .inherits declares descends⟩

end Heap

def Run.setFields : List Write → Run Unit
  | [] => pure ()
  | w :: rest => do
    setField w.object w.name w.value
    setFields rest

theorem Run.setFields_ok (writes : List Write) (m : Machine) :
    ∃ instances, setFields writes m =
        .ok () { m with heap := { m.heap with instances := instances } } ∧
      instances.size = m.heap.instances.size ∧ ∀ i x, m.heap.Has (.instanceRef i) →
        Heap.field? { m.heap with instances := instances } i x =
          (lastSet? writes i x).or (m.heap.field? i x) := by
  induction writes generalizing m with
  | nil => exact ⟨m.heap.instances, rfl, rfl, fun _ _ _ => rfl⟩
  | cons w rest ih =>
    let h := m.heap.setField w.object w.name.lexeme w.value
    have size : h.instances.size = m.heap.instances.size := Array.size_modify
    obtain ⟨instances, done, size', fields⟩ := ih { m with heap := h }
    refine ⟨instances, done, size'.trans size, fun i x has => ?_⟩
    have has' : h.Has (.instanceRef i) := lt_of_lt_of_eq has size.symm
    have single : lastSet? [w] i x =
        if w.object = i ∧ w.name.lexeme = x then some w.value else none := lastSet?_concat [] w i x
    rw [← List.singleton_append, lastSet?_append, single]
    refine (fields i x has').trans ?_
    rw [Option.or_assoc]
    congr 1
    refine (Heap.field?_setField has ..).trans ?_
    split <;> rfl

end Quill
