import Quill.Proofs.Heap.Intact

set_option autoImplicit false

namespace Quill

def lastNamed? (methods : List Function) (x : String) : Option Function :=
  methods.reverse.find? (·.label == x)

def nearestNamed? (chain : List (List Function)) (x : String) : Option Function :=
  chain.findSome? (lastNamed? · x)

section Names

variable {methods : List Function} {chain : List (List Function)} {x : String} {f : Function}

theorem lastNamed?_concat (methods : List Function) (f : Function) (x : String) :
    lastNamed? (methods ++ [f]) x = if x = f.label then some f else lastNamed? methods x := by
  unfold lastNamed?
  by_cases same : x = f.label
  · simp [same]
  · simp [same, Ne.symm same]

theorem lastNamed?_eq_some_iff :
    lastNamed? methods x = some f ↔ ∃ before after,
      methods = before ++ f :: after ∧ f.label = x ∧ ∀ g ∈ after, g.label ≠ x := by
  unfold lastNamed?
  rw [List.find?_eq_some_iff_append]
  constructor
  · rintro ⟨named, after, before, same, others⟩
    refine ⟨before.reverse, after.reverse, ?_, by simpa using named, by simpa using others⟩
    rw [← List.reverse_reverse methods, same]
    simp
  · rintro ⟨before, after, rfl, named, others⟩
    exact ⟨by simpa using named, after.reverse, before.reverse, by simp, by simpa using others⟩

theorem lastNamed?_eq_none_iff : lastNamed? methods x = none ↔ ∀ f ∈ methods, f.label ≠ x := by
  simp [lastNamed?]

theorem nearestNamed?_eq_none_iff :
    nearestNamed? chain x = none ↔ ∀ methods ∈ chain, ∀ f ∈ methods, f.label ≠ x := by
  simp [nearestNamed?, List.findSome?_eq_none_iff, lastNamed?_eq_none_iff]

theorem nearestNamed?_eq_some_iff :
    nearestNamed? chain x = some f ↔ ∃ below own above,
      chain = below ++ own :: above ∧ lastNamed? own x = some f ∧
        ∀ methods ∈ below, ∀ g ∈ methods, g.label ≠ x := by
  unfold nearestNamed?
  rw [List.findSome?_eq_some_iff]
  simp only [lastNamed?_eq_none_iff]

end Names

namespace Heap

def Closes (h : Heap) (scope : ScopeId) (id : FunctionId) (f : Function) : Prop :=
  h.closures[id]? = some ⟨f, scope, f.label == initializerName⟩

def Tabulates (h : Heap) (scope : ScopeId) (table : Bindings FunctionId) (methods : List Function) :
    Prop :=
  ∀ x, Option.Rel (h.Closes scope) (table.find? x) (lastNamed? methods x)

/-- A class that was declared with a name, a superclass or none, and methods. -/
def Declares (h : Heap) (c : ClassId) (name : String) (parent : Option ClassId)
    (methods : List Function) : Prop :=
  ∃ table scope, h.classes[c]? = some ⟨name, parent, table⟩ ∧ h.Tabulates scope table methods

/-- What the classes on the chain from a class upwards were declared with. -/
inductive Descends (h : Heap) : ClassId → List (List Function) → Prop where
  | root {c : ClassId} {name : String} {methods : List Function} :
      h.Declares c name none methods → Descends h c [methods]
  | inherits {c p : ClassId} {name : String} {methods : List Function}
      {chain : List (List Function)} :
      h.Declares c name (some p) methods → Descends h p chain → Descends h c (methods :: chain)

def Codes (h : Heap) (id : FunctionId) (f : Function) : Prop :=
  ∃ scope, h.Closes scope id f

section Tables

variable {h h' : Heap} {scope : ScopeId} {table : Bindings FunctionId} {methods : List Function}

theorem rel_imp {α β : Type} {R S : α → β → Prop} (imp : ∀ a b, R a b → S a b) {a : Option α}
    {b : Option β} (rel : Option.Rel R a b) : Option.Rel S a b := by
  cases rel with
  | some related => exact .some (imp _ _ related)
  | none => exact .none

theorem Tabulates.empty (h : Heap) (scope : ScopeId) : h.Tabulates scope {} [] :=
  fun _ => .none

theorem Tabulates.mono (tabulates : h.Tabulates scope table methods)
    (closures : ∀ (i : FunctionId) c, h.closures[i]? = some c → h'.closures[i]? = some c) :
    h'.Tabulates scope table methods :=
  fun x => rel_imp (fun id _ closes => closures id _ closes) (tabulates x)

theorem Tabulates.insert (tabulates : h.Tabulates scope table methods) {id : FunctionId}
    {f : Function} (closes : h.Closes scope id f) :
    h.Tabulates scope (table.insert f.label id) (methods ++ [f]) := by
  intro x
  rw [Bindings.find?_insert, lastNamed?_concat]
  by_cases same : x = f.label
  · simp only [same, if_true]
    exact .some closes
  · simp only [same, if_false]
    exact tabulates x

section Later

variable (closures : ∀ (i : FunctionId) c, h.closures[i]? = some c → h'.closures[i]? = some c)
  (classes : ∀ (c : ClassId) cls, h.classes[c]? = some cls → h'.classes[c]? = some cls)

include closures classes

theorem Declares.mono {c : ClassId} {name : String} {parent : Option ClassId}
    (declares : h.Declares c name parent methods) : h'.Declares c name parent methods := by
  obtain ⟨table, scope, found, tabulates⟩ := declares
  exact ⟨table, scope, classes c _ found, tabulates.mono closures⟩

theorem Descends.mono {c : ClassId} {chain : List (List Function)}
    (descends : h.Descends c chain) : h'.Descends c chain := by
  induction descends with
  | root declares => exact .root (declares.mono closures classes)
  | inherits declares _ ih => exact .inherits (declares.mono closures classes) ih

end Later

end Tables

def Founded (h : Heap) : Prop :=
  ∀ (c : ClassId) cls p, h.classes[c]? = some cls → cls.superclass = some p → p < c

theorem Intact.founded {h : Heap} {root : ScopeId} (intact : h.Intact root) : h.Founded :=
  fun c cls p found => (intact.classes c cls found).older p

section Chains

variable {h : Heap} (founded : h.Founded) {c : ClassId} {name : String} {methods : List Function}

include founded

theorem Declares.findMethod? {parent : Option ClassId} (declares : h.Declares c name parent methods)
    (x : String) :
    match lastNamed? methods x with
    | some f => ∃ id, h.findMethod? c x = some id ∧ h.Codes id f
    | none => h.findMethod? c x = parent.bind (h.findMethod? · x) := by
  obtain ⟨table, scope, found, tabulates⟩ := declares
  have own := tabulates x
  rw [Heap.findMethod?, found]
  dsimp only
  generalize table.find? x = entry at own
  generalize lastNamed? methods x = last at own
  cases own with
  | some closes => exact ⟨_, rfl, scope, closes⟩
  | none =>
    cases parent with
    | none => rfl
    | some p => exact if_pos (founded c _ p found rfl)

theorem Descends.findMethod? {chain : List (List Function)} (descends : h.Descends c chain)
    (x : String) : Option.Rel h.Codes (h.findMethod? c x) (nearestNamed? chain x) := by
  -- Level by level: the class's own method counts, and else what counts above it.
  induction descends with
  | root declares | inherits declares _ ih =>
    have level := declares.findMethod? founded x
    rw [nearestNamed?, List.findSome?_cons]
    cases own : lastNamed? _ x with
    | some f =>
      rw [own] at level
      obtain ⟨id, found, codes⟩ := level
      rw [found]
      exact .some codes
    | none =>
      rw [own] at level
      rw [level]
      first
        | exact ih
        | exact .none

end Chains

end Heap

end Quill
