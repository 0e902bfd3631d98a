import Quill.Proofs.Heap.Growth

set_option autoImplicit false

namespace Quill

def Callable.value : Callable → Value
  | .function id => .function id
  | .native id => .native id
  | .classRef id => .classRef id

theorem Value.callable?_value {v : Value} {callee : Callable} (found : v.callable? = some callee) :
    callee.value = v := by
  cases v <;> cases found <;> rfl

namespace Heap

/-- The object a value refers to exists. -/
def Has (h : Heap) : Value → Prop
  | .nil | .boolean _ | .number _ | .string _ => True
  | .function id => id < h.closures.size
  | .native id => id < h.natives.size
  | .classRef id => id < h.classes.size
  | .instanceRef id => id < h.instances.size

/-- Every object is still there, with the links it was created with. -/
structure Persists (h h' : Heap) : Prop where
  scopes : h.scopes.size ≤ h'.scopes.size
  parents : ∀ s < h.scopes.size, h'.parent? s = h.parent? s
  closures : ∀ (i : FunctionId) c, h.closures[i]? = some c → h'.closures[i]? = some c
  natives : ∀ (i : NativeId) n, h.natives[i]? = some n → h'.natives[i]? = some n
  classes : ∀ (i : ClassId) c, h.classes[i]? = some c → h'.classes[i]? = some c
  instances : ∀ (i : InstanceId) o, h.instances[i]? = some o →
    ∃ o', h'.instances[i]? = some o' ∧ o'.classId = o.classId

theorem Grows.persists {h h' : Heap} (grows : h.Grows h') : h.Persists h' :=
  { grows with natives := fun i n found => by rw [grows.natives, found] }

theorem size_le_of_getElem? {α : Type} {a a' : Array α}
    (same : ∀ (i : Nat) x, a[i]? = some x → ∃ x', a'[i]? = some x') : a.size ≤ a'.size := by
  apply Nat.le_of_not_lt
  intro lt
  obtain ⟨x', found⟩ := same a'.size _ (Array.getElem?_eq_getElem lt)
  simp at found

namespace Persists

variable {h h' h'' : Heap}

theorem refl (h : Heap) : h.Persists h :=
  (Grows.refl h).persists

theorem trans (first : h.Persists h') (second : h'.Persists h'') : h.Persists h'' where
  scopes := Nat.le_trans first.scopes second.scopes
  parents s lt := by rw [second.parents s (Nat.lt_of_lt_of_le lt first.scopes), first.parents s lt]
  closures i c found := second.closures i c (first.closures i c found)
  natives i n found := second.natives i n (first.natives i n found)
  classes i c found := second.classes i c (first.classes i c found)
  instances i o found := by
    obtain ⟨o', found', same⟩ := first.instances i o found
    obtain ⟨o'', found'', same'⟩ := second.instances i o' found'
    exact ⟨o'', found'', same'.trans same⟩

theorem has (persists : h.Persists h') {v : Value} (has : h.Has v) : h'.Has v := by
  cases v with
  | nil | boolean | number | string => trivial
  | function id =>
    have le := size_le_of_getElem? fun i c found => ⟨c, persists.closures i c found⟩
    exact Nat.lt_of_lt_of_le has le
  | native id =>
    have le := size_le_of_getElem? fun i n found => ⟨n, persists.natives i n found⟩
    exact Nat.lt_of_lt_of_le has le
  | classRef id =>
    have le := size_le_of_getElem? fun i c found => ⟨c, persists.classes i c found⟩
    exact Nat.lt_of_lt_of_le has le
  | instanceRef id =>
    have le := size_le_of_getElem? fun i o found =>
      (persists.instances i o found).imp fun _ => And.left
    exact Nat.lt_of_lt_of_le has le

theorem has_all (persists : h.Persists h') {vs : List Value} (has : ∀ v ∈ vs, h.Has v) :
    ∀ v ∈ vs, h'.Has v :=
  fun v mem => persists.has (has v mem)

theorem scope_lt (persists : h.Persists h') {s : ScopeId} (lt : s < h.scopes.size) :
    s < h'.scopes.size :=
  Nat.lt_of_lt_of_le lt persists.scopes

end Persists

theorem persists_write (h : Heap) (s : ScopeId) (name : String) (value : Value) :
    h.Persists (h.write s name value) :=
  { Persists.refl h with
    scopes := by simp [write]
    parents := fun s' _ => h.parent?_write s name value s' }

theorem persists_addNative (h : Heap) (native : Native) : h.Persists (h.addNative native) :=
  { Persists.refl h with natives := fun _ _ found => getElem?_push_old found }

end Heap

def Bindings.Known (vars : Bindings Value) (h : Heap) : Prop :=
  ∀ x v, vars.find? x = some v → h.Has v

theorem Bindings.known_empty (h : Heap) : (empty : Bindings Value).Known h :=
  fun _ _ found => by cases found

theorem Bindings.Known.insert {vars : Bindings Value} {h : Heap} (known : vars.Known h)
    (name : String) {value : Value} (has : h.Has value) : (vars.insert name value).Known h := by
  intro x v found
  rw [find?_insert] at found
  split at found
  · cases found
    exact has
  · exact known x v found

theorem Bindings.Known.persists {vars : Bindings Value} {h h' : Heap} (known : vars.Known h)
    (persists : h.Persists h') : vars.Known h' :=
  fun x v found => persists.has (known x v found)

def Reply.Known (h : Heap) : Reply → Prop
  | .value v => h.Has v
  | .invoke callee arguments => h.Has callee.value ∧ ∀ v ∈ arguments, h.Has v
  | _ => True

structure Native.Honest (native : Native) (h : Heap) : Prop where
  discreet : native.Discreet
  known : ∀ h', h.Persists h' → ∀ arguments line, (∀ v ∈ arguments, h'.Has v) →
    (native.respond arguments line).Known h'

theorem Native.Honest.persists {native : Native} {h h' : Heap} (honest : native.Honest h)
    (persists : h.Persists h') : native.Honest h' :=
  ⟨honest.discreet, fun h'' later => honest.known h'' (persists.trans later)⟩

theorem Native.clock_honest (h : Heap) : Native.clock.Honest h :=
  ⟨Native.clock_discreet, fun _ _ _ _ _ => trivial⟩

structure Scope.Sound (scope : Scope) (h : Heap) (root s : ScopeId) : Prop where
  older : ∀ p, scope.parent = some p → p < s
  outermost : scope.parent = none ↔ s = root
  values : scope.vars.Known h

structure Class.Sound (cls : Class) (h : Heap) (c : ClassId) : Prop where
  older : ∀ p, cls.superclass = some p → p < c
  methods : ∀ x id, cls.methods.find? x = some id → id < h.closures.size

structure Instance.Sound (o : Instance) (h : Heap) : Prop where
  classId : o.classId < h.classes.size
  fields : o.fields.Known h

namespace Heap

structure Within (h h' : Heap) (root : ScopeId) : Prop where
  scopes : ∀ (s : ScopeId) scope, h.scopes[s]? = some scope → scope.Sound h' root s
  closures : ∀ (i : FunctionId) c, h.closures[i]? = some c → c.scope < h'.scopes.size
  natives : ∀ (i : NativeId) n, h.natives[i]? = some n → n.Honest h'
  classes : ∀ (i : ClassId) c, h.classes[i]? = some c → c.Sound h' i
  instances : ∀ (i : InstanceId) o, h.instances[i]? = some o → o.Sound h'

/-- There is a root, and no object refers to one that does not exist. -/
structure Intact (h : Heap) (root : ScopeId) : Prop extends h.Within h root where
  root : root < h.scopes.size

section Within

variable {h h' h'' : Heap} {root : ScopeId}

theorem Within.persists (within : h.Within h' root) (persists : h'.Persists h'') :
    h.Within h'' root where
  scopes s scope found :=
    let sound := within.scopes s scope found
    { sound with values := sound.values.persists persists }
  closures i c found := persists.scope_lt (within.closures i c found)
  natives i n found := (within.natives i n found).persists persists
  classes i c found :=
    let sound := within.classes i c found
    { sound with methods := fun x id named => persists.has (v := .function id) (sound.methods x id named) }
  instances i o found :=
    let sound := within.instances i o found
    ⟨persists.has (v := .classRef o.classId) sound.classId, sound.fields.persists persists⟩

theorem forall_push {α : Type} {a : Array α} {x : α} {P : Nat → α → Prop}
    (old : ∀ (i : Nat) y, a[i]? = some y → P i y) (new : P a.size x) (i : Nat) (y : α)
    (found : (a.push x)[i]? = some y) : P i y := by
  rcases getElem?_push_cases found with found | ⟨rfl, rfl⟩
  · exact old i y found
  · exact new

end Within

namespace Intact

variable {h : Heap} {root : ScopeId}

theorem known_values (intact : h.Intact root) {s : ScopeId} {x : String} {v : Value}
    (found : h.value? s x = some v) : h.Has v := by
  obtain ⟨scope, at', found⟩ := Option.bind_eq_some_iff.mp found
  exact (intact.scopes s scope at').values x v found

theorem addScope (intact : h.Intact root) {vars : Bindings Value} {parent : ScopeId}
    (known : vars.Known h) (lt : parent < h.scopes.size) :
    (h.addScope ⟨vars, some parent⟩).Intact root := by
  have persists := (h.grows_addScope ⟨vars, some parent⟩).persists
  have old := intact.toWithin.persists persists
  refine ⟨{ old with scopes := forall_push old.scopes ⟨?_, ?_, known.persists persists⟩ },
    persists.scope_lt intact.root⟩
  · rintro p ⟨⟩
    exact lt
  · simp only [reduceCtorEq, false_iff]
    exact Nat.ne_of_gt intact.root

theorem addClosure (intact : h.Intact root) {closure : Closure}
    (lt : closure.scope < h.scopes.size) : (h.addClosure closure).Intact root := by
  have old := intact.toWithin.persists (h.grows_addClosure closure).persists
  exact ⟨{ old with closures := forall_push old.closures lt }, intact.root⟩

theorem addClass (intact : h.Intact root) {cls : Class} (sound : cls.Sound h h.classes.size) :
    (h.addClass cls).Intact root := by
  have old := intact.toWithin.persists (h.grows_addClass cls).persists
  exact ⟨{ old with classes := forall_push old.classes ⟨sound.older, sound.methods⟩ }, intact.root⟩

theorem addInstance (intact : h.Intact root) {c : ClassId} (lt : c < h.classes.size) :
    (h.addInstance ⟨c, {}⟩).Intact root := by
  have old := intact.toWithin.persists (h.grows_addInstance ⟨c, {}⟩).persists
  have new : Instance.Sound ⟨c, {}⟩ (h.addInstance ⟨c, {}⟩) := ⟨lt, Bindings.known_empty _⟩
  exact ⟨{ old with instances := forall_push old.instances new }, intact.root⟩

theorem addNative (intact : h.Intact root) {native : Native} (honest : native.Honest h) :
    (h.addNative native).Intact root := by
  have persists := h.persists_addNative native
  have old := intact.toWithin.persists persists
  exact ⟨{ old with natives := forall_push old.natives (honest.persists persists) }, intact.root⟩

theorem write (intact : h.Intact root) (s : ScopeId) (name : String) {value : Value}
    (has : h.Has value) : (h.write s name value).Intact root := by
  have persists := h.persists_write s name value
  have old := intact.toWithin.persists persists
  refine ⟨{ old with scopes := fun s' scope found => ?_ }, persists.scope_lt intact.root⟩
  -- Only the variables of the one scope are touched, not its place.
  change (h.scopes.modify s _)[s']? = some scope at found
  rw [Array.getElem?_modify] at found
  by_cases same : s = s'
  · simp only [same, if_true, Option.map_eq_some_iff] at found
    obtain ⟨scope', found, rfl⟩ := found
    have sound := old.scopes s' scope' found
    exact { sound with values := sound.values.insert name (persists.has has) }
  · simp only [same, if_false] at found
    exact old.scopes s' scope found

theorem setField (intact : h.Intact root) (i : InstanceId) (name : String) {value : Value}
    (has : h.Has value) : (h.setField i name value).Intact root := by
  have persists := (h.grows_setField i name value).persists
  have old := intact.toWithin.persists persists
  refine ⟨{ old with instances := fun j o found => ?_ }, intact.root⟩
  obtain ⟨o', found', same⟩ := setField_cases found
  have sound := old.instances j o' found'
  rcases same with rfl | rfl
  · exact sound
  · exact { sound with fields := sound.fields.insert name (persists.has has) }

theorem addRoot_clock : (empty.addRoot [.clock]).Intact 0 := by
  have vars : (Bindings.insert {} "clock" (.native 0)).Known (empty.addRoot [.clock]) :=
    (Bindings.known_empty _).insert "clock" Nat.zero_lt_one
  refine ⟨⟨?_, ?_, ?_, ?_, ?_⟩, Nat.zero_lt_one⟩
  · refine forall_push (a := #[]) (fun _ _ found => by cases found) ⟨?_, by simp, vars⟩
    rintro p ⟨⟩
  · exact fun _ _ found => by cases found
  · exact forall_push (a := #[]) (fun _ _ found => by cases found) (Native.clock_honest _)
  · exact fun _ _ found => by cases found
  · exact fun _ _ found => by cases found

end Intact

inductive Outward (h : Heap) : ScopeId → List ScopeId → Prop where
  | outermost {s : ScopeId} : s < h.scopes.size → h.parent? s = none → Outward h s [s]
  | inner {s p : ScopeId} {path : List ScopeId} :
      h.parent? s = some p → Outward h p path → Outward h s (s :: path)

inductive Lineage (h : Heap) : ClassId → List ClassId → Prop where
  | root {c : ClassId} {cls : Class} :
      h.classes[c]? = some cls → cls.superclass = none → Lineage h c [c]
  | inherits {c p : ClassId} {cls : Class} {path : List ClassId} :
      h.classes[c]? = some cls → cls.superclass = some p → Lineage h p path → Lineage h c (c :: path)

def ownMethod? (h : Heap) (name : String) (c : ClassId) : Option FunctionId :=
  h.classes[c]?.bind (·.methods.find? name)

section Walks

variable {h : Heap} {root : ScopeId}

theorem Intact.scope_of_parent (intact : h.Intact root) {s p : ScopeId}
    (link : h.parent? s = some p) : p < s := by
  obtain ⟨scope, at', link⟩ := Option.bind_eq_some_iff.mp link
  exact (intact.scopes s scope at').older p link

theorem Intact.parent?_none (intact : h.Intact root) {s : ScopeId} (lt : s < h.scopes.size) :
    h.parent? s = none ↔ s = root := by
  have found := Array.getElem?_eq_getElem lt
  simp only [parent?, found, Option.bind_eq_bind, Option.bind_some]
  exact (intact.scopes s _ found).outermost

theorem Intact.outward (intact : h.Intact root) (s : ScopeId) (lt : s < h.scopes.size) :
    ∃ path, h.Outward s path ∧ path.getLast? = some root := by
  induction s using Nat.strongRecOn with
  | _ s ih =>
    cases link : h.parent? s with
    | none =>
      have same := (intact.parent?_none lt).mp link
      exact ⟨[s], .outermost lt link, by simp [same]⟩
    | some p =>
      have less := intact.scope_of_parent link
      obtain ⟨path, outward, last⟩ := ih p less (Nat.lt_trans less lt)
      refine ⟨s :: path, .inner link outward, ?_⟩
      rw [List.getLast?_cons, last]
      rfl

theorem Intact.nearest?_eq (intact : h.Intact root) {s : ScopeId} {path : List ScopeId}
    (outward : h.Outward s path) (name : String) :
    h.nearest? s name = path.findSome? (h.slotIn? · name) := by
  induction outward with
  | outermost _ link =>
    rw [nearest?, link, List.findSome?_cons]
    cases h.slotIn? _ name <;> rfl
  | @inner s p path link _ ih =>
    rw [nearest?, link, List.findSome?_cons]
    cases h.slotIn? s name with
    | some slot => rfl
    | none => simp only [intact.scope_of_parent link, if_true, ih]

theorem Outward.ancestor?_eq {s : ScopeId} {path : List ScopeId} (outward : h.Outward s path)
    (d : Nat) : h.ancestor? s d = path[d]? := by
  induction outward generalizing d with
  | outermost _ link =>
    cases d with
    | zero => rfl
    | succ d => simp [ancestor?, link]
  | inner link _ ih =>
    cases d with
    | zero => rfl
    | succ d => simp [ancestor?, link, ih d]

theorem Intact.lineage (intact : h.Intact root) (c : ClassId) (lt : c < h.classes.size) :
    ∃ path, h.Lineage c path := by
  induction c using Nat.strongRecOn with
  | _ c ih =>
    have found := Array.getElem?_eq_getElem lt
    cases link : h.classes[c].superclass with
    | none => exact ⟨[c], .root found link⟩
    | some p =>
      have less := (intact.classes c _ found).older p link
      obtain ⟨path, lineage⟩ := ih p less (Nat.lt_trans less lt)
      exact ⟨c :: path, .inherits found link lineage⟩

theorem Intact.findMethod?_eq (intact : h.Intact root) {c : ClassId} {path : List ClassId}
    (lineage : h.Lineage c path) (name : String) :
    h.findMethod? c name = path.findSome? (h.ownMethod? name) := by
  induction lineage with
  | root found link =>
    rw [findMethod?, List.findSome?_cons, ownMethod?, found]
    simp only [link, Option.bind_some]
    split <;> simp_all
  | @inherits c p cls path found link _ ih =>
    have less := (intact.classes c cls found).older p link
    rw [findMethod?, List.findSome?_cons, ownMethod?, found]
    simp only [link, Option.bind_some, less, if_true, ih]
    split <;> simp_all

end Walks

end Heap

end Quill
