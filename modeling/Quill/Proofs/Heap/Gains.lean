import Quill.Proofs.Heap.Intact

set_option autoImplicit false

namespace Quill

namespace Heap

def Labels (h : Heap) (table : Bindings FunctionId) : Prop :=
  ∀ x id, table.find? x = some id → ∃ closure, h.closures[id]? = some closure ∧
    closure.isInitializer = (x == initializerName)

/-- The scopes that were there before have gained at most some names, and those in one of them. -/
structure Frames (s : ScopeId) (names : List String) (h h' : Heap) : Prop where
  scopes : h.scopes.size ≤ h'.scopes.size
  keeps : ∀ t x, h.Binds t x → h'.Binds t x
  adds : ∀ t x, t < h.scopes.size → h'.Binds t x → h.Binds t x ∨ t = s ∧ x ∈ names

/-- The heap has gained at most some names in one of its scopes, besides new objects. -/
structure Gains (s : ScopeId) (names : List String) (h h' : Heap) : Prop
    extends Frames s names h h' where
  closures : ∀ (i : FunctionId) c, h.closures[i]? = some c → h'.closures[i]? = some c
  classes : ∀ (c : ClassId) cls, h'.classes[c]? = some cls →
    h.classes[c]? = some cls ∨ h'.Labels cls.methods

def Free (h : Heap) (s : ScopeId) (names : List String) : Prop :=
  ∀ x ∈ names, s < h.scopes.size ∧ ¬ h.Binds s x

theorem Labels.mono {h h' : Heap} {table : Bindings FunctionId} (labels : h.Labels table)
    (closures : ∀ (i : FunctionId) c, h.closures[i]? = some c → h'.closures[i]? = some c) :
    h'.Labels table := by
  intro x id found
  obtain ⟨closure, there, kind⟩ := labels x id found
  exact ⟨closure, closures id closure there, kind⟩

theorem labels_empty (h : Heap) : h.Labels {} :=
  fun _ _ found => by cases found

theorem Labels.insert {h : Heap} {table : Bindings FunctionId} (labels : h.Labels table)
    {name : String} {id : FunctionId} {closure : Closure} (found : h.closures[id]? = some closure)
    (kind : closure.isInitializer = (name == initializerName)) :
    h.Labels (table.insert name id) := by
  intro x id' found'
  rw [Bindings.find?_insert] at found'
  split at found'
  next same =>
    cases found'
    exact ⟨closure, found, same ▸ kind⟩
  next => exact labels x id' found'

theorem binds_addScope (h : Heap) (scope : Scope) {s : ScopeId} (old : s < h.scopes.size)
    (x : String) : (h.addScope scope).Binds s x ↔ h.Binds s x := by
  unfold Binds
  rw [value?_addScope, if_neg (Nat.ne_of_lt old)]

theorem binds_addScope_new (h : Heap) (scope : Scope) (x : String) :
    (h.addScope scope).Binds h.scopes.size x ↔ ∃ v, scope.vars.find? x = some v := by
  unfold Binds
  rw [value?_addScope, if_pos rfl]

theorem binds_write_iff {h : Heap} {s : ScopeId} (lt : s < h.scopes.size) (name : String)
    (value : Value) (t : ScopeId) (x : String) :
    (h.write s name value).Binds t x ↔ h.Binds t x ∨ t = s ∧ x = name := by
  unfold Binds
  rw [value?_write]
  by_cases here : t = s ∧ x = name
  · obtain ⟨rfl, rfl⟩ := here
    simp [lt]
  · have elsewhere : ¬ (t = s ∧ x = name ∧ s < h.scopes.size) :=
      fun same => here ⟨same.1, same.2.1⟩
    simp [elsewhere, here]

theorem slotIn?_of_value? {h : Heap} {s : ScopeId} {name : String} {v : Value}
    (found : h.value? s name = some v) : h.slotIn? s name = some ⟨s, v⟩ := by
  rw [slotIn?_eq, found]
  rfl

theorem binds_of_slotIn? {h : Heap} {s : ScopeId} {name : String} {slot : Slot}
    (found : h.slotIn? s name = some slot) : slot.scope = s ∧ h.Binds s name := by
  rw [slotIn?_eq, Option.map_eq_some_iff] at found
  obtain ⟨v, value, rfl⟩ := found
  exact ⟨rfl, v, value⟩

theorem binds_of_nearest? {h : Heap} {s : ScopeId} {name : String} {slot : Slot}
    (found : h.nearest? s name = some slot) : h.Binds slot.scope name := by
  induction s using Nat.strongRecOn with
  | _ s ih =>
    rw [nearest?] at found
    split at found
    next slot' here =>
      cases found
      obtain ⟨same, binds⟩ := binds_of_slotIn? here
      exact same ▸ binds
    next =>
      split at found
      next => cases found
      next p link =>
        split at found
        next less => exact ih p less found
        next => cases found

theorem binds_of_slot {h : Heap} {s : ScopeId} {name : String} {line : Nat} {slot : Slot}
    (found : h.slot s name line = .ok slot) : h.Binds slot.scope name := by
  unfold Heap.slot at found
  split at found
  next slot' nearest =>
    cases found
    exact binds_of_nearest? nearest
  next => cases found

theorem binds_of_slotAt {h : Heap} {s : ScopeId} {d : Nat} {name : String} {line : Nat}
    {slot : Slot} (found : h.slotAt s d name line = .ok slot) : h.Binds slot.scope name := by
  unfold Heap.slotAt at found
  split at found
  next => cases found
  next target _ =>
    split at found
    next slot' here =>
      cases found
      obtain ⟨same, binds⟩ := binds_of_slotIn? here
      exact same ▸ binds
    next => cases found

theorem definable_iff (h : Heap) (s : ScopeId) (name : String) (line : Nat) :
    h.definable s name line = .ok () ↔ ¬ h.Binds s name := by
  unfold definable Binds
  rw [slotIn?_eq]
  cases h.value? s name <;> simp

section Frames

variable {s : ScopeId} {a b : List String} {h h' h'' : Heap}

namespace Frames

theorem trans (first : Frames s a h h') (second : Frames s b h' h'') : Frames s (a ++ b) h h'' where
  scopes := Nat.le_trans first.scopes second.scopes
  keeps t x binds := second.keeps t x (first.keeps t x binds)
  adds t x old binds := by
    rcases second.adds t x (Nat.lt_of_lt_of_le old first.scopes) binds with binds | ⟨same, mem⟩
    · exact (first.adds t x old binds).imp_right fun ⟨same, mem⟩ =>
        ⟨same, List.mem_append_left _ mem⟩
    · exact .inr ⟨same, List.mem_append_right _ mem⟩

theorem mono (frames : Frames s a h h') (sub : a ⊆ b) : Frames s b h h' :=
  { frames with adds := fun t x old binds =>
      (frames.adds t x old binds).imp_right fun ⟨same, mem⟩ => ⟨same, sub mem⟩ }

theorem enclosed {scope : Scope} (inner : Frames h.scopes.size a (h.addScope scope) h') :
    Frames s [] h h' where
  scopes := Nat.le_trans (h.grows_addScope scope).scopes inner.scopes
  keeps t x binds := inner.keeps t x ((h.grows_addScope scope).binds t x binds)
  adds t x old binds := by
    have old' : t < (h.addScope scope).scopes.size :=
      Nat.lt_of_lt_of_le old (h.grows_addScope scope).scopes
    rcases inner.adds t x old' binds with binds | ⟨rfl, -⟩
    · exact .inl ((h.binds_addScope scope old x).mp binds)
    · exact absurd old (Nat.lt_irrefl _)

theorem free (frames : Frames s a h h') (free : h.Free s (a ++ b)) (apart : ∀ x ∈ a, x ∉ b) :
    h'.Free s b := by
  intro x mem
  obtain ⟨exist, unbound⟩ := free x (List.mem_append_right _ mem)
  refine ⟨Nat.lt_of_lt_of_le exist frames.scopes, fun binds => ?_⟩
  rcases frames.adds s x exist binds with binds | ⟨-, mem'⟩
  · exact unbound binds
  · exact apart x mem' mem

end Frames

namespace Gains

theorem refl (s : ScopeId) (names : List String) (h : Heap) : Gains s names h h :=
  ⟨⟨Nat.le_refl _, fun _ _ b => b, fun _ _ _ b => .inl b⟩, fun _ _ b => b, fun _ _ b => .inl b⟩

theorem trans (first : Gains s a h h') (second : Gains s b h' h'') : Gains s (a ++ b) h h'' where
  toFrames := first.toFrames.trans second.toFrames
  closures i c found := second.closures i c (first.closures i c found)
  classes c cls found := by
    rcases second.classes c cls found with found | labels
    · exact (first.classes c cls found).imp_right fun labels => labels.mono second.closures
    · exact .inr labels

theorem mono (gains : Gains s a h h') (sub : a ⊆ b) : Gains s b h h' :=
  { gains with toFrames := gains.toFrames.mono sub }

theorem of_scopes (names : List String) (scopes : h'.scopes = h.scopes)
    (closures : ∀ (i : FunctionId) c, h.closures[i]? = some c → h'.closures[i]? = some c)
    (classes : ∀ (c : ClassId) cls, h'.classes[c]? = some cls →
      h.classes[c]? = some cls ∨ h'.Labels cls.methods) : Gains s names h h' := by
  have same (t : ScopeId) (x : String) : h'.Binds t x ↔ h.Binds t x := by
    unfold Binds value?
    rw [scopes]
  exact ⟨⟨Nat.le_of_eq (congrArg Array.size scopes.symm), fun t x => (same t x).mpr,
    fun t x _ binds => .inl ((same t x).mp binds)⟩, closures, classes⟩

theorem addScope (scope : Scope) : Gains s [] h (h.addScope scope) where
  scopes := (h.grows_addScope scope).scopes
  keeps := (h.grows_addScope scope).binds
  adds _ x old binds := .inl ((h.binds_addScope scope old x).mp binds)
  closures _ _ found := found
  classes _ _ found := .inl found

theorem addClosure (closure : Closure) : Gains s [] h (h.addClosure closure) :=
  of_scopes [] rfl (fun _ _ found => getElem?_push_old found) fun _ _ found => .inl found

theorem addInstance (o : Instance) : Gains s [] h (h.addInstance o) :=
  of_scopes [] rfl (fun _ _ found => found) fun _ _ found => .inl found

theorem setField (i : InstanceId) (name : String) (value : Value) :
    Gains s [] h (h.setField i name value) :=
  of_scopes [] rfl (fun _ _ found => found) fun _ _ found => .inl found

theorem addClass {cls : Class} (labels : h.Labels cls.methods) :
    Gains s [] h (h.addClass cls) := by
  refine of_scopes [] rfl (fun _ _ found => found) fun c cls' found => ?_
  rcases getElem?_push_cases found with old | ⟨-, rfl⟩
  · exact .inl old
  · exact .inr labels

theorem write {t : ScopeId} {name : String} (value : Value)
    (fits : h.Binds t name ∨ t = s ∧ name ∈ a) : Gains s a h (h.write t name value) := by
  have size : (h.write t name value).scopes.size = h.scopes.size := by simp [Heap.write]
  by_cases lt : t < h.scopes.size
  · refine ⟨⟨Nat.le_of_eq size.symm, fun t' x binds => ?_, fun t' x _ binds => ?_⟩,
      fun _ _ found => found, fun _ _ found => .inl found⟩
    · exact (binds_write_iff lt name value t' x).mpr (.inl binds)
    · rcases (binds_write_iff lt name value t' x).mp binds with binds | ⟨rfl, rfl⟩
      · exact .inl binds
      · exact fits
  · have same (t' : ScopeId) (x : String) :
        (h.write t name value).value? t' x = h.value? t' x := by
      rw [value?_write, if_neg fun here => lt here.2.2]
    refine ⟨⟨Nat.le_of_eq size.symm, fun t' x binds => ?_, fun t' x _ binds => ?_⟩,
      fun _ _ found => found, fun _ _ found => .inl found⟩
    · exact binds.imp fun v => (same t' x).trans
    · exact .inl (binds.imp fun v => (same t' x).symm.trans)

theorem enclosed {scope : Scope} (inner : Gains h.scopes.size a (h.addScope scope) h') :
    Gains s [] h h' where
  toFrames := inner.toFrames.enclosed
  closures := inner.closures
  classes := inner.classes

end Gains

end Frames

theorem Free.mono {h : Heap} {s : ScopeId} {a b : List String} (free : h.Free s b) (sub : a ⊆ b) :
    h.Free s a :=
  fun x mem => free x (sub mem)

theorem free_nil (h : Heap) (s : ScopeId) : h.Free s [] :=
  fun _ mem => by cases mem

end Heap

end Quill
