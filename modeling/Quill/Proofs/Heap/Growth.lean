import Quill.Heap.Classes
import Quill.Heap.Scopes
import Quill.Proofs.Heap.Natives

set_option autoImplicit false

namespace Quill

namespace Heap

def value? (h : Heap) (s : ScopeId) (name : String) : Option Value :=
  h.scopes[s]?.bind (·.vars.find? name)

def Binds (h : Heap) (s : ScopeId) (name : String) : Prop :=
  ∃ v, h.value? s name = some v

theorem slotIn?_eq (h : Heap) (s : ScopeId) (name : String) :
    h.slotIn? s name = (h.value? s name).map (⟨s, ·⟩) := by
  unfold slotIn? value?
  cases h.scopes[s]? with
  | none => rfl
  | some scope =>
    rw [Option.bind_some, Option.map_eq_bind]
    rfl

theorem Binds.lt {h : Heap} {s : ScopeId} {name : String} (binds : h.Binds s name) :
    s < h.scopes.size := by
  obtain ⟨v, found⟩ := binds
  obtain ⟨scope, found, -⟩ := Option.bind_eq_some_iff.mp found
  exact (Array.getElem?_eq_some_iff.mp found).1

/-- The two names that the machine binds by itself. -/
def Reserved (name : String) : Prop :=
  name = "this" ∨ name = "super"

structure Grows (h h' : Heap) : Prop where
  scopes : h.scopes.size ≤ h'.scopes.size
  parents : ∀ s < h.scopes.size, h'.parent? s = h.parent? s
  binds : ∀ s x, h.Binds s x → h'.Binds s x
  words : ∀ s x v, Reserved x → h.value? s x = some v → h'.value? s x = some v
  closures : ∀ (i : FunctionId) c, h.closures[i]? = some c → h'.closures[i]? = some c
  classes : ∀ (i : ClassId) c, h.classes[i]? = some c → h'.classes[i]? = some c
  instances : ∀ (i : InstanceId) o, h.instances[i]? = some o →
    ∃ o', h'.instances[i]? = some o' ∧ o'.classId = o.classId
  natives : h'.natives = h.natives

namespace Grows

variable {h h' h'' : Heap}

theorem refl (h : Heap) : Grows h h :=
  ⟨Nat.le_refl _, fun _ _ => rfl, fun _ _ b => b, fun _ _ _ _ b => b, fun _ _ b => b,
    fun _ _ b => b, fun _ o b => ⟨o, b, rfl⟩, rfl⟩

theorem trans (first : Grows h h') (second : Grows h' h'') : Grows h h'' where
  scopes := Nat.le_trans first.scopes second.scopes
  parents s lt := by rw [second.parents s (Nat.lt_of_lt_of_le lt first.scopes), first.parents s lt]
  binds s x b := second.binds s x (first.binds s x b)
  words s x v word b := second.words s x v word (first.words s x v word b)
  closures i c b := second.closures i c (first.closures i c b)
  classes i c b := second.classes i c (first.classes i c b)
  instances i o b := by
    obtain ⟨o', found, same⟩ := first.instances i o b
    obtain ⟨o'', found', same'⟩ := second.instances i o' found
    exact ⟨o'', found', same'.trans same⟩
  natives := second.natives.trans first.natives

theorem classes_size (grows : Grows h h') {c : ClassId} (lt : c < h.classes.size) :
    c < h'.classes.size := by
  have found := grows.classes c _ (Array.getElem?_eq_getElem lt)
  exact (Array.getElem?_eq_some_iff.mp found).1

theorem instances_size (grows : Grows h h') {i : InstanceId} (lt : i < h.instances.size) :
    i < h'.instances.size := by
  obtain ⟨o, found, -⟩ := grows.instances i _ (Array.getElem?_eq_getElem lt)
  exact (Array.getElem?_eq_some_iff.mp found).1

end Grows

section Allocation

variable (h : Heap)

theorem getElem?_push_old {α : Type} {a : Array α} {x y : α} {i : Nat} (found : a[i]? = some y) :
    (a.push x)[i]? = some y := by
  have lt := (Array.getElem?_eq_some_iff.mp found).1
  rw [Array.getElem?_push_lt lt, ← found, Array.getElem?_eq_getElem lt]

theorem getElem?_push_cases {α : Type} {a : Array α} {x y : α} {i : Nat}
    (found : (a.push x)[i]? = some y) : a[i]? = some y ∨ i = a.size ∧ y = x := by
  rw [Array.getElem?_push] at found
  split at found
  next same =>
    cases found
    exact .inr ⟨same, rfl⟩
  next => exact .inl found

theorem value?_addScope (scope : Scope) (s : ScopeId) (x : String) :
    (h.addScope scope).value? s x =
      if s = h.scopes.size then scope.vars.find? x else h.value? s x := by
  unfold value? addScope
  rw [Array.getElem?_push]
  split <;> rfl

theorem parent?_addScope (scope : Scope) (s : ScopeId) :
    (h.addScope scope).parent? s = if s = h.scopes.size then scope.parent else h.parent? s := by
  unfold parent? addScope
  rw [Array.getElem?_push]
  split <;> rfl

theorem value?_lt {s : ScopeId} {x : String} {v : Value} (found : h.value? s x = some v) :
    s < h.scopes.size :=
  Binds.lt ⟨v, found⟩

theorem grows_addScope (scope : Scope) : Grows h (h.addScope scope) where
  scopes := by simp [addScope]
  parents s lt := by rw [parent?_addScope, if_neg (Nat.ne_of_lt lt)]
  binds s x b := by
    obtain ⟨v, found⟩ := b
    exact ⟨v, by rw [value?_addScope, if_neg (Nat.ne_of_lt (h.value?_lt found)), found]⟩
  words s x v _ found := by
    rw [value?_addScope, if_neg (Nat.ne_of_lt (h.value?_lt found)), found]
  closures _ _ b := b
  classes _ _ b := b
  instances _ o b := ⟨o, b, rfl⟩
  natives := rfl

theorem grows_addClosure (closure : Closure) : Grows h (h.addClosure closure) :=
  { Grows.refl h with closures := fun _ _ found => getElem?_push_old found }

theorem grows_addClass (c : Class) : Grows h (h.addClass c) :=
  { Grows.refl h with classes := fun _ _ found => getElem?_push_old found }

theorem grows_addInstance (o : Instance) : Grows h (h.addInstance o) :=
  { Grows.refl h with instances := fun _ o' found => ⟨o', getElem?_push_old found, rfl⟩ }

end Allocation

section Update

variable (h : Heap)

theorem value?_write (s : ScopeId) (name : String) (value : Value) (s' : ScopeId) (x : String) :
    (h.write s name value).value? s' x =
      if s' = s ∧ x = name ∧ s < h.scopes.size then some value else h.value? s' x := by
  unfold value? write
  rw [Array.getElem?_modify]
  by_cases same : s = s'
  · subst same
    cases scope : h.scopes[s]? with
    | none =>
      have out : ¬ s < h.scopes.size := Nat.not_lt.mpr (Array.getElem?_eq_none_iff.mp scope)
      simp [out]
    | some scope' =>
      have lt := (Array.getElem?_eq_some_iff.mp scope).1
      simp [lt, Bindings.find?_insert]
  · simp [same, Ne.symm same]

theorem parent?_write (s : ScopeId) (name : String) (value : Value) (s' : ScopeId) :
    (h.write s name value).parent? s' = h.parent? s' := by
  unfold parent? write
  rw [Array.getElem?_modify]
  by_cases same : s = s'
  · subst same
    cases h.scopes[s]? <;> simp
  · simp [same]

theorem grows_write {s : ScopeId} {name : String} {value : Value} (plain : ¬ Reserved name) :
    Grows h (h.write s name value) where
  scopes := by simp [write]
  parents s' _ := h.parent?_write s name value s'
  binds s' x b := by
    obtain ⟨v, found⟩ := b
    unfold Binds
    rw [value?_write]
    split
    · exact ⟨value, rfl⟩
    · exact ⟨v, found⟩
  words s' x v word found := by
    rw [value?_write, if_neg, found]
    rintro ⟨-, rfl, -⟩
    exact plain word
  closures _ _ b := b
  classes _ _ b := b
  instances _ o b := ⟨o, b, rfl⟩
  natives := rfl

theorem instances_setField (i : InstanceId) (name : String) (value : Value) (j : InstanceId) :
    (h.setField i name value).instances[j]? =
      if i = j then
        h.instances[j]?.map fun o => { o with fields := o.fields.insert name value }
      else h.instances[j]? := by
  unfold setField
  exact Array.getElem?_modify

theorem setField_cases {h : Heap} {i j : InstanceId} {name : String} {value : Value} {o : Instance}
    (found : (h.setField i name value).instances[j]? = some o) :
    ∃ o', h.instances[j]? = some o' ∧
      (o = o' ∨ o = { o' with fields := o'.fields.insert name value }) := by
  rw [instances_setField] at found
  split at found
  next =>
    obtain ⟨o', old, rfl⟩ := Option.map_eq_some_iff.mp found
    exact ⟨o', old, .inr rfl⟩
  next => exact ⟨o, found, .inl rfl⟩

theorem grows_setField (i : InstanceId) (name : String) (value : Value) :
    Grows h (h.setField i name value) :=
  { Grows.refl h with
    instances := fun j o found => by
      rw [instances_setField]
      split
      next =>
        rw [found]
        exact ⟨_, rfl, rfl⟩
      next => exact ⟨o, found, rfl⟩ }

end Update

end Heap

end Quill
