import Quill.Proofs.Simulation.Keeps

set_option autoImplicit false

namespace Quill

namespace Chain

variable {g s : ScopeId} {p : Pending} {w : World} {h : Heap} {scopes : List (Bindings Bool)}
  {frames : List Frame}

theorem uncons {frame : Frame} (chain : Chain g p w h s scopes (frame :: frames)) :
    ∃ scope outer q, scopes = scope :: outer ∧ w[s]? = some frame ∧
      (∀ x, scope.contains x → h.Binds s x ∨ p s x) ∧ h.parent? s = some q ∧
      Chain g p w h q outer frames := by
  cases scopes with
  | nil => cases chain
  | cons scope outer =>
    obtain ⟨here, names, q, link, rest⟩ := chain
    exact ⟨scope, outer, q, rfl, here, names, link, rest⟩

theorem reach {d : Nat} {frame : Frame} (chain : Chain g p w h s scopes frames)
    (at' : frames[d]? = some frame) :
    ∃ s' scope, h.ancestor? s d = some s' ∧ scopes[d]? = some scope ∧ w[s']? = some frame ∧
      (∃ q, h.parent? s' = some q) ∧ ∀ x, scope.contains x → h.Binds s' x ∨ p s' x := by
  induction frames generalizing s scopes d with
  | nil => cases at'
  | cons frame' frames ih =>
    obtain ⟨scope, outer, q, rfl, here, names, link, rest⟩ := chain.uncons
    cases d with
    | zero =>
      cases at'
      exact ⟨s, scope, rfl, rfl, here, ⟨q, link⟩, names⟩
    | succ d =>
      obtain ⟨s', scope', found, rest'⟩ := ih rest at'
      refine ⟨s', scope', ?_, rest'⟩
      unfold Heap.ancestor?
      rw [link]
      exact found

theorem length (chain : Chain g p w h s scopes frames) : scopes.length = frames.length := by
  induction scopes generalizing s frames with
  | nil =>
    cases frames with
    | nil => rfl
    | cons => cases chain
  | cons scope scopes ih =>
    cases frames with
    | nil => cases chain
    | cons frame frames =>
      obtain ⟨-, -, q, -, outer⟩ := chain
      rw [List.length_cons, List.length_cons, ih outer]

theorem outermost (chain : Chain g p w h s scopes frames) :
    h.ancestor? s scopes.length = some g := by
  induction scopes generalizing s frames with
  | nil =>
    cases frames with
    | nil =>
      obtain rfl : s = g := chain
      rfl
    | cons => cases chain
  | cons scope scopes ih =>
    cases frames with
    | nil => cases chain
    | cons frame frames =>
      obtain ⟨-, -, q, link, outer⟩ := chain
      rw [List.length_cons]
      unfold Heap.ancestor?
      rw [link]
      exact ih outer

theorem extend {scope scope' : Bindings Bool} {outer : List (Bindings Bool)}
    (chain : Chain g p w h s (scope :: outer) frames)
    (names : ∀ x, scope'.contains x → scope.contains x ∨ h.Binds s x ∨ p s x) :
    Chain g p w h s (scope' :: outer) frames := by
  match frames, chain with
  | _ :: _, ⟨here, names', rest⟩ =>
    refine ⟨here, fun x hx => ?_, rest⟩
    rcases names x hx with old | new
    · exact names' x old
    · exact new

theorem withName {name : Token} (chain : Chain g p w h s scopes frames)
    (bound : h.Binds s name.lexeme) : Chain g p w h s (withName scopes name) frames := by
  cases scopes with
  | nil => exact chain
  | cons scope outer =>
    obtain ⟨scope', same, found⟩ := withName_cons scope outer name
    rw [same]
    refine chain.extend fun x hx => ?_
    rw [Bindings.contains_iff, found] at hx
    split at hx
    next same => exact .inr (.inl (same ▸ bound))
    next => exact .inl ((scope.contains_iff x).mpr hx)

theorem declare {r : Resolution} {name : Token} (chain : Chain g p w h s r.scopes frames)
    (open' : p s name.lexeme) : Chain g p w h s (r.declare name).scopes frames := by
  rw [Resolution.declare_scopes]
  cases same : r.scopes with
  | nil =>
    rw [same] at chain
    exact chain
  | cons scope outer =>
    rw [same] at chain
    refine chain.extend fun x hx => ?_
    split at hx
    · exact .inl hx
    · rcases (scope.contains_insert _ _ x).mp hx with rfl | old
      · exact .inr (.inr open')
      · exact .inl old

theorem push (chain : Chain g p w h s scopes frames) (vars : Bindings Value)
    (scope : Bindings Bool) (frame : Frame) (size : w.length = h.scopes.size)
    (names : ∀ x, scope.contains x → vars.contains x) :
    Chain g p (w ++ [frame]) (h.addScope ⟨vars, some s⟩) h.scopes.size (scope :: scopes)
      (frame :: frames) := by
  refine ⟨?_, fun x hx => .inl ?_, s, ?_, chain.later (.of_grows (List.prefix_append _ _)
    (h.grows_addScope _))⟩
  · rw [← size]
    simp
  · obtain ⟨v, found⟩ := (vars.contains_iff x).mp (names x hx)
    exact ⟨v, by rw [Heap.value?_addScope, if_pos rfl, found]⟩
  · rw [Heap.parent?_addScope, if_pos rfl]

theorem pushWord (chain : Chain g p w h s scopes frames) (word : String) (value : Value)
    {scope : Bindings Bool} (frame : Frame) (size : w.length = h.scopes.size)
    (names : ∀ x, scope.contains x → x = word) :
    Chain g p (w ++ [frame]) (h.addScope ⟨Bindings.empty.insert word value, some s⟩)
      h.scopes.size (scope :: scopes) (frame :: frames) := by
  refine chain.push _ scope frame size fun x hx => ?_
  rw [names x hx, Bindings.contains, Bindings.find?_insert, if_pos rfl]
  rfl

end Chain

theorem Frame.Fits.records {frame : Frame} {scope : Bindings Bool} {x : String}
    (fits : frame.Fits scope) (hx : scope.contains x) : frame.Records x := by
  cases frame with
  | names all => exact (fits x hx).1
  | receiver | parent _ => exact (fits x).mp hx

def Machine.Misses (m : Machine) (p : Pending) (id : RefId) (name : Token) : Prop :=
  ∃ d s, m.distances[id]? = some d ∧ m.heap.ancestor? m.scope d = some s ∧
    ¬ m.heap.Binds s name.lexeme ∧ p s name.lexeme

section Access

variable {S : Setting} {p : Pending} {w : World} {m : Machine} {r : Resolution}
  {frames : List Frame} {id : RefId} {name : Token}

theorem Sound.nearest_global {h : Heap} (sound : Sound S p w h) (x : String) :
    h.nearest? S.globals x = h.slotIn? S.globals x := by
  unfold Heap.nearest?
  rw [sound.outermost]
  cases h.slotIn? S.globals x <;> rfl

theorem slotOf_cases (stands : Stands S p w m)
    (chain : Chain S.globals p w m.heap m.scope r.scopes frames)
    (distance : S.table[id]? = r.distance? name.lexeme) :
    (∃ slot, Run.slotOf m id name = .ok slot ∧
      m.heap.value? slot.scope name.lexeme = some slot.value) ∨
    (∃ fault line, Run.slotOf m id name = .error (.runtime fault line)) ∨
    (m.Misses p id name ∧
      ∃ d, Run.slotOf m id name = .error (.internal (.notBound name.lexeme d name.line))) := by
  unfold Run.slotOf
  rw [stands.table, distance]
  cases found : r.distance? name.lexeme with
  | none =>
    -- No distance is recorded, so the name is one of the globals, and these have nothing around them.
    simp only
    unfold Heap.slot
    rw [stands.globals, stands.sound.nearest_global, Heap.slotIn?_eq]
    cases value : m.heap.value? S.globals name.lexeme with
    | none => exact .inr (.inl ⟨_, _, rfl⟩)
    | some v => exact .inl ⟨_, rfl, value⟩
  | some d =>
    -- The walk knows the name in its scope, so the machine's scope has it, or is yet to get it.
    unfold Resolution.distance? at found
    obtain ⟨lt, hit, -⟩ := List.findIdx?_eq_some_iff_getElem.mp found
    have lt' : d < frames.length := chain.length ▸ lt
    obtain ⟨s, scope, reached, scope', -, -, names⟩ :=
      chain.reach (List.getElem?_eq_getElem lt')
    rw [List.getElem?_eq_getElem lt] at scope'
    cases scope'
    simp only
    unfold Heap.slotAt
    rw [reached]
    simp only
    rw [Heap.slotIn?_eq]
    cases value : m.heap.value? s name.lexeme with
    | some v => exact .inl ⟨_, rfl, value⟩
    | none =>
      have missing : ¬ m.heap.Binds s name.lexeme := by
        rintro ⟨v, bound⟩
        rw [value] at bound
        cases bound
      refine .inr (.inr ⟨⟨d, s, ?_, reached, missing, ?_⟩, d, rfl⟩)
      · rw [stands.table, distance]
        exact found
      · exact (names _ hit).resolve_left missing

theorem holds_at {scopes : List (Bindings Bool)} {d : Nat} {frame : Frame} (sound : Sound S p w m.heap)
    (chain : Chain S.globals p w m.heap m.scope scopes frames) (at' : frames[d]? = some frame) :
    ∃ s, m.heap.ancestor? m.scope d = some s ∧ frame.Holds S m.heap s := by
  obtain ⟨s, -, reached, -, here, ⟨q, link⟩, -⟩ := chain.reach at'
  refine ⟨s, reached, sound.holds s frame ?_ here⟩
  rintro rfl
  rw [sound.outermost] at link
  cases link

end Access

end Quill
