import Quill.Proofs.Heap.Growth
import Quill.Proofs.Resolution.Accepted

set_option autoImplicit false

namespace Quill

/-- What a run starts from: its globals, the distances of all references, the visits whose code may
run, and who opened the scopes that hold `super`. -/
structure Setting where
  globals : ScopeId
  table : Distances
  sites : List (RefId × Stmt)
  Known : Visit → Prop
  Made : ScopeId → ClassId → Stmt → Prop
  ok : ∀ v, Known v → v.Ok table sites
  parts : ∀ v part, Known v → part ∈ v.parts → Known part

abbrev World := List Frame

abbrev Pending := ScopeId → String → Prop

def Chain (g : ScopeId) (pending : Pending) (w : World) (h : Heap) :
    ScopeId → List (Bindings Bool) → List Frame → Prop
  | s, [], [] => s = g
  | s, scope :: scopes, frame :: frames =>
    w[s]? = some frame ∧ (∀ x, scope.contains x → h.Binds s x ∨ pending s x) ∧
      ∃ p, h.parent? s = some p ∧ Chain g pending w h p scopes frames
  | _, _, _ => False

structure Later (pending pending' : Pending) (w w' : World) (h h' : Heap) : Prop where
  world : w <+: w'
  grows : h.Grows h'
  pending : ∀ s x, pending s x → pending' s x ∨ h'.Binds s x

namespace Later

variable {p p' p'' : Pending} {w w' w'' : World} {h h' h'' : Heap}

theorem of_grows (world : w <+: w') (grows : h.Grows h') : Later p p w w' h h' :=
  ⟨world, grows, fun _ _ open' => .inl open'⟩

theorem getElem? (later : Later p p' w w' h h') {s : ScopeId} {frame : Frame}
    (found : w[s]? = some frame) : w'[s]? = some frame := by
  obtain ⟨rest, rfl⟩ := later.world
  rw [List.getElem?_append_left (List.getElem?_eq_some_iff.mp found).1, found]

end Later

theorem Heap.parent?_lt {h : Heap} {s p : ScopeId} (found : h.parent? s = some p) :
    s < h.scopes.size := by
  obtain ⟨scope, found, -⟩ := Option.bind_eq_some_iff.mp found
  exact (Array.getElem?_eq_some_iff.mp found).1

theorem Chain.later {g : ScopeId} {p p' : Pending} {w w' : World} {h h' : Heap} {s : ScopeId}
    {scopes : List (Bindings Bool)} {frames : List Frame} (chain : Chain g p w h s scopes frames)
    (later : Later p p' w w' h h') : Chain g p' w' h' s scopes frames := by
  induction scopes generalizing s frames with
  | nil =>
    cases frames with
    | nil => exact chain
    | cons => cases chain
  | cons scope scopes ih =>
    cases frames with
    | nil => cases chain
    | cons frame frames =>
      obtain ⟨here, names, parent, link, outer⟩ := chain
      refine ⟨later.getElem? here, fun x hx => ?_, parent, ?_, ih outer⟩
      · rcases names x hx with bound | open'
        · exact .inl (later.grows.binds s x bound)
        · exact (later.pending s x open').symm
      · rw [later.grows.parents s (Heap.parent?_lt link), link]

def Callable.Code (S : Setting) (p : Pending) (w : World) (h : Heap) (closure : Closure) : Prop :=
  ∃ v, S.Known v ∧ v.piece = .function closure.code ∧ v.ctx.loopDepth = 0 ∧
    Chain S.globals p w h closure.scope v.state.scopes v.frames ∧
    (closure.isInitializer → ∃ outer, v.frames = .receiver :: outer)

def Method (S : Setting) (p : Pending) (w : World) (h : Heap) (id : FunctionId) : Prop :=
  ∃ closure, h.closures[id]? = some closure ∧
    ∃ v scope scopes frames, S.Known v ∧ v.piece = .function closure.code ∧ v.ctx.loopDepth = 0 ∧
      v.state.scopes = scope :: scopes ∧ v.frames = .receiver :: frames ∧
      Chain S.globals p w h closure.scope scopes frames

def Value.Valid (S : Setting) (p : Pending) (w : World) (h : Heap) : Value → Prop
  | .function id => ∃ closure, h.closures[id]? = some closure ∧ Callable.Code S p w h closure
  | .native id => id = 0
  | .classRef c => c < h.classes.size
  | .instanceRef i => i < h.instances.size
  | _ => True

section Later

variable {S : Setting} {p p' : Pending} {w w' : World} {h h' : Heap}

theorem Callable.Code.later {closure : Closure} (code : Callable.Code S p w h closure)
    (later : Later p p' w w' h h') : Callable.Code S p' w' h' closure := by
  obtain ⟨v, known, piece, outside, chain, init⟩ := code
  exact ⟨v, known, piece, outside, chain.later later, init⟩

theorem Method.later {id : FunctionId} (method : Method S p w h id)
    (later : Later p p' w w' h h') : Method S p' w' h' id := by
  obtain ⟨closure, found, v, scope, scopes, frames, known, piece, outside, same, same', chain⟩ := method
  exact ⟨closure, later.grows.closures id _ found, v, scope, scopes, frames, known, piece, outside,
    same, same', chain.later later⟩

theorem Value.Valid.later {v : Value} (valid : v.Valid S p w h) (later : Later p p' w w' h h') :
    v.Valid S p' w' h' := by
  cases v with
  | function id =>
    obtain ⟨closure, found, code⟩ := valid
    exact ⟨closure, later.grows.closures id _ found, code.later later⟩
  | native id => exact valid
  | classRef c => exact later.grows.classes_size valid
  | instanceRef i => exact later.grows.instances_size valid
  | nil | boolean _ | number _ | string _ => trivial

end Later

def Frame.Holds (S : Setting) (h : Heap) (s : ScopeId) : Frame → Prop
  | .names _ => True
  | .receiver => ∃ i, h.value? s "this" = some (.instanceRef i)
  | .parent declaration => ∃ c, h.value? s "super" = some (.classRef c) ∧ S.Made s c declaration

theorem Frame.Holds.grows {S : Setting} {h h' : Heap} {s : ScopeId} {frame : Frame}
    (holds : frame.Holds S h s) (grows : h.Grows h') : frame.Holds S h' s := by
  cases frame with
  | names _ => trivial
  | receiver =>
    obtain ⟨i, found⟩ := holds
    exact ⟨i, grows.words s _ _ (.inl rfl) found⟩
  | parent declaration =>
    obtain ⟨c, found, made⟩ := holds
    exact ⟨c, grows.words s _ _ (.inr rfl) found, made⟩

structure Sound (S : Setting) (p : Pending) (w : World) (h : Heap) : Prop where
  size : w.length = h.scopes.size
  root : S.globals < h.scopes.size
  outermost : h.parent? S.globals = none
  names : ∀ s frame x, s ≠ S.globals → w[s]? = some frame → h.Binds s x → frame.Records x
  values : ∀ s x v, h.value? s x = some v → v.Valid S p w h
  holds : ∀ s frame, s ≠ S.globals → w[s]? = some frame → frame.Holds S h s
  fields : ∀ (i : InstanceId) o x v, h.instances[i]? = some o → o.fields.find? x = some v →
    v.Valid S p w h
  classOf : ∀ (i : InstanceId) o, h.instances[i]? = some o → o.classId < h.classes.size
  methods : ∀ (c : ClassId) cls x id, h.classes[c]? = some cls → cls.methods.find? x = some id →
    Method S p w h id
  natives : h.natives = #[.clock]

namespace Sound

variable {S : Setting} {p p' : Pending} {w w' : World} {h h' : Heap}

theorem later (sound : Sound S p w h) (later : Later p p' w w' h h')
    (size : w'.length = h'.scopes.size)
    (values : ∀ s x v, h'.value? s x = some v → h.value? s x = some v ∨
      v.Valid S p' w' h' ∧ (s ≠ S.globals → ∃ frame, w'[s]? = some frame ∧ frame.Records x))
    (holds : ∀ s (frame : Frame), w'[s]? = some frame → w[s]? = some frame ∨ frame.Holds S h' s)
    (fields : ∀ (i : InstanceId) o x v, h'.instances[i]? = some o → o.fields.find? x = some v →
      (∃ o', h.instances[i]? = some o' ∧ o'.fields.find? x = some v) ∨ v.Valid S p' w' h')
    (classOf : ∀ (i : InstanceId) o, h'.instances[i]? = some o →
      (∃ o', h.instances[i]? = some o' ∧ o.classId = o'.classId) ∨ o.classId < h'.classes.size)
    (methods : ∀ (c : ClassId) cls x id, h'.classes[c]? = some cls → cls.methods.find? x = some id →
      h.classes[c]? = some cls ∨ Method S p' w' h' id) : Sound S p' w' h' where
  size := size
  root := Nat.lt_of_lt_of_le sound.root later.grows.scopes
  outermost := by rw [later.grows.parents _ sound.root, sound.outermost]
  names s frame x inner found binds := by
    obtain ⟨v, value⟩ := binds
    -- Worlds only grow at the end, so the frame of a scope that was there is the frame it had.
    rcases values s x v value with old | ⟨-, fresh⟩
    · obtain ⟨frame', found'⟩ : ∃ frame', w[s]? = some frame' :=
        ⟨_, List.getElem?_eq_getElem (sound.size ▸ h.value?_lt old)⟩
      have same := later.getElem? found'
      rw [found] at same
      cases same
      exact sound.names s frame x inner found' ⟨v, old⟩
    · obtain ⟨frame', found', records⟩ := fresh inner
      rw [found] at found'
      cases found'
      exact records
  values s x v value := by
    rcases values s x v value with old | ⟨valid, -⟩
    · exact (sound.values s x v old).later later
    · exact valid
  holds s frame inner found := by
    rcases holds s frame found with old | fresh
    · exact (sound.holds s frame inner old).grows later.grows
    · exact fresh
  fields i o x v found value := by
    rcases fields i o x v found value with ⟨o', found', value'⟩ | valid
    · exact (sound.fields i o' x v found' value').later later
    · exact valid
  classOf i o found := by
    rcases classOf i o found with ⟨o', found', same⟩ | lt
    · rw [same]
      exact later.grows.classes_size (sound.classOf i o' found')
    · exact lt
  methods c cls x id found value := by
    rcases methods c cls x id found value with old | method
    · exact (sound.methods c cls x id old value).later later
    · exact method
  natives := later.grows.natives.trans sound.natives

theorem settle (sound : Sound S p w h) (settled : ∀ s x, p s x → p' s x ∨ h.Binds s x) :
    Sound S p' w h :=
  sound.later ⟨List.prefix_rfl, .refl h, settled⟩ sound.size (fun _ _ _ old => .inl old)
    (fun _ _ old => .inl old) (fun _ o _ _ found value => .inl ⟨o, found, value⟩)
    (fun _ o found => .inl ⟨o, found, rfl⟩) (fun _ _ _ _ found _ => .inl found)

theorem addScope (sound : Sound S p w h) {vars : Bindings Value} {parent : ScopeId} {frame : Frame}
    (valid : ∀ x v, vars.find? x = some v → v.Valid S p w h ∧ frame.Records x)
    (holds : frame.Holds S (h.addScope ⟨vars, some parent⟩) h.scopes.size) :
    Sound S p (w ++ [frame]) (h.addScope ⟨vars, some parent⟩) := by
  have later : Later p p w (w ++ [frame]) h (h.addScope ⟨vars, some parent⟩) :=
    .of_grows (List.prefix_append _ _) (h.grows_addScope _)
  -- There is one frame for each scope, so the new frame is at the place of the new scope.
  have last : (w ++ [frame])[h.scopes.size]? = some frame := by
    rw [← sound.size]
    simp
  refine sound.later later ?_ ?_ ?_ (fun _ o _ _ found value => .inl ⟨o, found, value⟩)
    (fun _ o found => .inl ⟨o, found, rfl⟩) (fun _ _ _ _ found _ => .inl found)
  · simp [Heap.addScope, sound.size]
  · intro s x v value
    rw [Heap.value?_addScope] at value
    split at value
    next same =>
      refine .inr ⟨(valid x v value).1.later later, fun _ => ⟨frame, ?_, (valid x v value).2⟩⟩
      rw [same, last]
    next => exact .inl value
  · intro s frame' found
    rcases Nat.lt_or_ge s w.length with lt | ge
    · rw [List.getElem?_append_left lt] at found
      exact .inl found
    · have same : s = h.scopes.size := by
        have lt := (List.getElem?_eq_some_iff.mp found).1
        rw [List.length_append, List.length_singleton] at lt
        rw [← sound.size]
        exact Nat.le_antisymm (Nat.lt_succ_iff.mp lt) ge
      rw [same, last] at found
      cases found
      exact .inr (same ▸ holds)

theorem addWord (sound : Sound S p w h) (word : String) (value : Value) (parent : ScopeId)
    (frame : Frame) (valid : value.Valid S p w h) (records : frame.Records word)
    (holds : ∀ h', h'.value? h.scopes.size word = some value → frame.Holds S h' h.scopes.size) :
    Sound S p (w ++ [frame])
      (h.addScope ⟨Bindings.empty.insert word value, some parent⟩) := by
  refine sound.addScope (fun x v bound => ?_) (holds _ ?_)
  · rw [Bindings.find?_insert] at bound
    split at bound
    next same =>
      cases bound
      exact ⟨valid, same ▸ records⟩
    next => cases bound
  · rw [Heap.value?_addScope, if_pos rfl, Bindings.find?_insert, if_pos rfl]

theorem addClosure (sound : Sound S p w h) (closure : Closure) :
    Sound S p w (h.addClosure closure) :=
  sound.later (.of_grows List.prefix_rfl (h.grows_addClosure closure)) sound.size
    (fun _ _ _ old => .inl old) (fun _ _ old => .inl old)
    (fun _ o _ _ found value => .inl ⟨o, found, value⟩)
    (fun _ o found => .inl ⟨o, found, rfl⟩) (fun _ _ _ _ found _ => .inl found)

theorem addClass (sound : Sound S p w h) {c : Class}
    (methods : ∀ x id, c.methods.find? x = some id → Method S p w h id) :
    Sound S p w (h.addClass c) := by
  have later : Later p p w w h (h.addClass c) := .of_grows List.prefix_rfl (h.grows_addClass c)
  refine sound.later later sound.size (fun _ _ _ old => .inl old) (fun _ _ old => .inl old)
    (fun _ o _ _ found value => .inl ⟨o, found, value⟩) (fun _ o found => .inl ⟨o, found, rfl⟩) ?_
  intro id cls x method found value
  rcases Heap.getElem?_push_cases found with old | ⟨-, rfl⟩
  · exact .inl old
  · exact .inr ((methods x method value).later later)

theorem addInstance (sound : Sound S p w h) {c : ClassId} (lt : c < h.classes.size) :
    Sound S p w (h.addInstance ⟨c, {}⟩) := by
  refine sound.later (.of_grows List.prefix_rfl (h.grows_addInstance _)) sound.size
    (fun _ _ _ old => .inl old) (fun _ _ old => .inl old) ?_ ?_ (fun _ _ _ _ found _ => .inl found)
  · intro i o x v found value
    rcases Heap.getElem?_push_cases found with old | ⟨-, rfl⟩
    · exact .inl ⟨o, old, value⟩
    · cases value
  · intro i o found
    rcases Heap.getElem?_push_cases found with old | ⟨-, rfl⟩
    · exact .inl ⟨o, old, rfl⟩
    · exact .inr lt

theorem setField (sound : Sound S p w h) (i : InstanceId) (name : String) {value : Value}
    (valid : value.Valid S p w h) : Sound S p w (h.setField i name value) := by
  have later : Later p p w w h (h.setField i name value) :=
    .of_grows List.prefix_rfl (h.grows_setField i name value)
  refine sound.later later sound.size (fun _ _ _ old => .inl old) (fun _ _ old => .inl old) ?_ ?_
    (fun _ _ _ _ found _ => .inl found)
  · intro j o x v found field
    obtain ⟨o', old, rfl | rfl⟩ := Heap.setField_cases found
    · exact .inl ⟨o, old, field⟩
    · rw [Bindings.find?_insert] at field
      split at field
      · cases field
        exact .inr (valid.later later)
      · exact .inl ⟨o', old, field⟩
  · intro j o found
    obtain ⟨o', old, rfl | rfl⟩ := Heap.setField_cases found
    · exact .inl ⟨o, old, rfl⟩
    · exact .inl ⟨o', old, rfl⟩

theorem write (sound : Sound S p w h) {s : ScopeId} {name : String} {value : Value}
    (plain : ¬ Heap.Reserved name) (valid : value.Valid S p w (h.write s name value))
    (records : s ≠ S.globals → ∃ frame, w[s]? = some frame ∧ frame.Records name) :
    Sound S p w (h.write s name value) := by
  have later : Later p p w w h (h.write s name value) :=
    .of_grows List.prefix_rfl (h.grows_write plain)
  refine sound.later later ?_ ?_ (fun _ _ old => .inl old)
    (fun _ o _ _ found value => .inl ⟨o, found, value⟩) (fun _ o found => .inl ⟨o, found, rfl⟩)
    (fun _ _ _ _ found _ => .inl found)
  · simp [Heap.write, sound.size]
  · intro s' x v found
    rw [Heap.value?_write] at found
    split at found
    next same =>
      obtain ⟨rfl, rfl, -⟩ := same
      cases found
      exact .inr ⟨valid, records⟩
    next => exact .inl found

end Sound

structure Setting.Le (S S' : Setting) : Prop where
  globals : S'.globals = S.globals
  known : ∀ v, S.Known v → S'.Known v
  made : ∀ s c declaration, S.Made s c declaration → S'.Made s c declaration

section Transfer

variable {S S' : Setting} {p : Pending} {w : World} {h : Heap}

theorem Callable.Code.transfer {closure : Closure} (code : Callable.Code S p w h closure)
    (le : S.Le S') : Callable.Code S' p w h closure := by
  obtain ⟨v, known, piece, outside, chain, init⟩ := code
  exact ⟨v, le.known v known, piece, outside, le.globals ▸ chain, init⟩

theorem Method.transfer {id : FunctionId} (method : Method S p w h id) (le : S.Le S') :
    Method S' p w h id := by
  obtain ⟨closure, found, v, scope, scopes, frames, known, piece, outside, same, same', chain⟩ := method
  exact ⟨closure, found, v, scope, scopes, frames, le.known v known, piece, outside, same, same',
    le.globals ▸ chain⟩

theorem Value.Valid.transfer {v : Value} (valid : v.Valid S p w h) (le : S.Le S') :
    v.Valid S' p w h := by
  cases v with
  | function id =>
    obtain ⟨closure, found, code⟩ := valid
    exact ⟨closure, found, code.transfer le⟩
  | _ => exact valid

theorem Frame.Holds.transfer {frame : Frame} {s : ScopeId} (holds : frame.Holds S h s)
    (le : S.Le S') : frame.Holds S' h s := by
  cases frame with
  | names _ | receiver => exact holds
  | parent declaration =>
    obtain ⟨c, found, made⟩ := holds
    exact ⟨c, found, le.made s c declaration made⟩

theorem Sound.transfer (sound : Sound S p w h) (le : S.Le S') : Sound S' p w h where
  size := sound.size
  root := le.globals ▸ sound.root
  outermost := le.globals ▸ sound.outermost
  names := le.globals ▸ sound.names
  values s x v found := (sound.values s x v found).transfer le
  holds s frame inner found := (sound.holds s frame (le.globals ▸ inner) found).transfer le
  fields i o x v found value := (sound.fields i o x v found value).transfer le
  classOf := sound.classOf
  methods c cls x id found value := (sound.methods c cls x id found value).transfer le
  natives := sound.natives

end Transfer

end Quill
