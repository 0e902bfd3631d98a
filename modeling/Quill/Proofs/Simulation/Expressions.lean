import Quill.Proofs.Evaluator.Moments
import Quill.Proofs.Grammar.Lookahead
import Quill.Proofs.Simulation.Calls

set_option autoImplicit false

namespace Quill

def Task.Touches (ev : Evaluator) (t : Task) (m : Machine) (id : RefId) (name : Token)
    (m' : Machine) : Prop :=
  t = .expr (.variable id name) ∧ m' = m ∨
    ∃ e v, t = .expr (.assign id name e) ∧ ev.eval e m = .ok v m'

structure Accounts (T : Terms) (ev : Evaluator) (t : Task) (m : Machine) : Prop where
  premature : ∀ id name m', t.Touches ev m id name m' → m'.Misses T.pending id name → T.premature
  lost : ∀ name e halt m', t = .stmt (.var name (some e)) → ev.eval e m = .error halt m' →
    T.lost m.scope name.lexeme
  made : ∀ name e methods m' c m'', t = .stmt (.classDecl name (some e) methods) →
    ev.eval e m' = .ok (.classRef c) m'' →
    T.setting.Made m''.heap.scopes.size c (.classDecl name (some e) methods)

theorem Heap.slotAt_of_value {h : Heap} {s s' : ScopeId} {d : Nat} {x : String} {v : Value}
    (line : Nat) (reached : h.ancestor? s d = some s') (found : h.value? s' x = some v) :
    h.slotAt s d x line = .ok ⟨s', v⟩ := by
  unfold slotAt
  rw [reached]
  simp only [slotIn?_eq, found]
  rfl

section References

variable {T : Terms} {w : World} {m : Machine} {v : Visit} {id : RefId} {name : Token}

theorem keeps_readRef (here : Here T.setting T.pending w m v)
    (distance : T.setting.table[id]? = v.state.distance? name.lexeme)
    (premature : m.Misses T.pending id name → T.premature) :
    Keeps T (Run.readRef id name) w m fun w' value m' =>
      value.Valid T.setting T.pending w' m'.heap := by
  rcases slotOf_cases here.stands here.chain distance with
    ⟨slot, found, value⟩ | ⟨fault, line, failed⟩ | ⟨misses, d, failed⟩
  · refine .of_ok ?_ (.refl w m) here.stands (here.stands.sound.values _ _ _ value)
    unfold Run.readRef
    rw [found]
  · refine .of_error ?_ (.refl w m) (Keeps.left here.stands)
      (show Allowed _ (.error (.runtime fault line)) from trivial)
    unfold Run.readRef
    rw [failed]
  · refine .of_error ?_ (.refl w m) (Keeps.left here.stands)
      (show Allowed _ (.error (.internal (.notBound name.lexeme d name.line))) from premature misses)
    unfold Run.readRef
    rw [failed]

theorem keeps_writeRef {value : Value} (here : Here T.setting T.pending w m v)
    (distance : T.setting.table[id]? = v.state.distance? name.lexeme) (plain : name.Plain)
    (valid : value.Valid T.setting T.pending w m.heap)
    (premature : m.Misses T.pending id name → T.premature) :
    Keeps T (Run.writeRef id name value) w m fun w' _ m' =>
      value.Valid T.setting T.pending w' m'.heap := by
  have stands := here.stands
  rcases slotOf_cases stands here.chain distance with
    ⟨slot, found, bound⟩ | ⟨fault, line, failed⟩ | ⟨misses, d, failed⟩
  · -- The name was bound there before, so the frame of the scope records it already.
    have grows : m.heap.Grows (m.heap.write slot.scope name.lexeme value) :=
      m.heap.grows_write plain.not_reserved
    have valid' := valid.later (.of_grows List.prefix_rfl grows)
    have sound := stands.sound.write plain.not_reserved valid' fun inner => by
      have lt : slot.scope < w.length := stands.sound.size ▸ m.heap.value?_lt bound
      exact ⟨_, List.getElem?_eq_getElem lt, stands.sound.names _ _ _ inner
        (List.getElem?_eq_getElem lt) ⟨_, bound⟩⟩
    refine .of_ok (a := ()) ?_ (.of_heap List.prefix_rfl grows) (stands.of_heap sound) valid'
    unfold Run.writeRef
    rw [found]
  · refine .of_error ?_ (.refl w m) (Keeps.left stands)
      (show Allowed _ (.error (.runtime fault line)) from trivial)
    unfold Run.writeRef
    rw [failed]
  · refine .of_error ?_ (.refl w m) (Keeps.left stands)
      (show Allowed _ (.error (.internal (.notBound name.lexeme d name.line))) from premature misses)
    unfold Run.writeRef
    rw [failed]

theorem keeps_this {keyword : Token} (piece : v.piece = .expr (.this id keyword))
    (here : Here T.setting T.pending w m v) :
    Keeps T (Run.readRef id keyword) w m fun w' value m' =>
      value.Valid T.setting T.pending w' m'.heap := by
  obtain ⟨ctx, owner, state, frames, _⟩ := v
  cases piece
  have word : keyword.lexeme = "this" := here.ok.wellFormed
  obtain ⟨inner, outer, rfl, -, distance⟩ := here.ok.this_distance
  have receiver : (inner ++ Frame.receiver :: outer)[inner.length]? = some .receiver := by simp
  obtain ⟨s, reached, i, found⟩ := holds_at here.stands.sound here.chain receiver
  refine .of_ok ?_ (.refl w m) here.stands (here.stands.sound.values _ _ _ found)
  unfold Run.readRef Run.slotOf
  rw [here.stands.table, distance, word]
  simp only [Heap.slotAt_of_value keyword.line reached found]

theorem superBindings_ok {S : Setting} {p : Pending} {keyword method : Token}
    (piece : v.piece = .expr (.super id keyword method)) (here : Here S p w m v) :
    ∃ declaration d c i s s', (id, declaration) ∈ S.sites ∧
      v.state.distance? "this" = some d ∧ m.distances[id]? = some (d + 1) ∧
      m.heap.ancestor? m.scope (d + 1) = some s ∧ m.heap.value? s "super" = some (.classRef c) ∧
      S.Made s c declaration ∧
      m.heap.ancestor? m.scope d = some s' ∧ m.heap.value? s' "this" = some (.instanceRef i) ∧
      Evaluator.superBindings id keyword m = .ok (c, i) := by
  obtain ⟨ctx, owner, state, frames, _⟩ := v
  cases piece
  obtain ⟨inner, declaration, outer, site, rfl, this, -, distance⟩ := here.ok.super_distance
  have parent : (inner ++ Frame.receiver :: .parent declaration :: outer)[inner.length + 1]? =
      some (.parent declaration) := by simp
  have receiver : (inner ++ Frame.receiver :: .parent declaration :: outer)[inner.length]? =
      some .receiver := by simp
  obtain ⟨s, reached, c, found, made⟩ := holds_at here.stands.sound here.chain parent
  obtain ⟨s', reached', i, found'⟩ := holds_at here.stands.sound here.chain receiver
  have distance' : m.distances[id]? = some (inner.length + 1) := by rw [here.stands.table, distance]
  refine ⟨declaration, inner.length, c, i, s, s', site, this, distance', reached, found, made,
    reached', found', ?_⟩
  unfold Evaluator.superBindings Heap.getAt
  rw [distance']
  simp only [Heap.slotAt_of_value keyword.line reached found,
    Heap.slotAt_of_value keyword.line reached' found']
  rfl

end References

namespace Operator

def Fair : Except Error Value → Prop
  | .ok (.boolean _) | .ok (.number _) | .ok (.string _) | .error (.runtime ..) => True
  | _ => False

theorem unary_fair {operator : Token} (wf : [Symbol.bang, .minus].any operator.is)
    (operand : Value) : Fair (unary operator operand) := by
  obtain ⟨s, mem, hit⟩ := List.any_eq_true.mp wf
  rw [Token.is_iff] at hit
  unfold unary
  rw [hit]
  simp only [List.mem_cons, List.not_mem_nil, or_false] at mem
  rcases mem with rfl | rfl
  · trivial
  · cases operand <;> trivial

theorem onNumbers_fair (line : Nat) {f : Float → Float → Value} (plain : ∀ a b, Fair (.ok (f a b)))
    (left right : Value) : Fair (onNumbers line f left right) := by
  unfold onNumbers
  split
  next a b => exact plain a b
  next => trivial

theorem add_fair (h : Heap) (line : Nat) (left right : Value) : Fair (add h line left right) := by
  unfold add
  split <;> trivial

theorem binary_fair {operator : Token} (wf : binarySymbols.any operator.is) (h : Heap)
    (left right : Value) : Fair (binary h operator left right) := by
  obtain ⟨s, mem, hit⟩ := List.any_eq_true.mp wf
  rw [Token.is_iff] at hit
  unfold binary
  rw [hit]
  simp only [binarySymbols, List.mem_cons, List.not_mem_nil, or_false] at mem
  rcases mem with rfl | rfl | rfl | rfl | rfl | rfl | rfl | rfl | rfl | rfl <;>
    first
    | trivial
    | exact add_fair ..
    | exact onNumbers_fair _ (by simp [Fair]) _ _

end Operator

theorem keeps_operator {T : Terms} {w : World} {m : Machine} {f : Machine → Except Error Value}
    (stands : Stands T.setting T.pending w m) (fair : Operator.Fair (f m)) :
    Keeps T (Run.ask f) w m fun w' value m' => value.Valid T.setting T.pending w' m'.heap := by
  refine .ask stands (fun value same => ?_) fun e same => ?_
  · rw [same] at fair
    cases value <;> trivial
  · rw [same] at fair
    cases e <;> trivial

namespace Faithful

variable {T : Terms} {ev : Evaluator} {w : World} {m : Machine} {v : Visit} {ctx : Context}
  {owner : Option Stmt} {state : Resolution} {frames : List Frame}

theorem evalAll (faithful : Faithful T ev) {es : List Expr} {found : List Value}
    (piece : v.piece = .exprs es) (here : Here T.setting T.pending w m v)
    (valid : ∀ v ∈ found, v.Valid T.setting T.pending w m.heap) :
    Keeps T (ev.evalAll es found) w m fun w' values m' =>
      ∀ v ∈ values, v.Valid T.setting T.pending w' m'.heap := by
  induction es generalizing v w m found with
  | nil => exact .pure here.stands fun v mem => valid v (List.mem_reverse.mp mem)
  | cons e es ih =>
    obtain ⟨ctx, owner, state, frames, _⟩ := v
    cases piece
    have wf : e.WellFormed ∧ WellFormedExprs es := here.ok.wellFormed
    have first : Here T.setting T.pending w m ⟨ctx, owner, state, frames, .expr e⟩ :=
      here.part List.mem_cons_self rfl rfl
    refine .bind (faithful.eval rfl first) fun w' value m' steps stands valid' => ?_
    have rest : Here T.setting T.pending w' m'
        ⟨ctx, owner, e.resolve ctx state, frames, .exprs es⟩ :=
      (here.after steps stands).part (List.mem_cons_of_mem _ List.mem_cons_self) rfl
        (e.resolve_walks ctx state wf.1).scopes
    refine ih rfl rest fun v mem => ?_
    rcases List.mem_cons.mp mem with rfl | mem
    · exact valid'
    · exact (valid v mem).later (steps.later _)

theorem evalCall (faithful : Faithful T ev) {callee : Expr} {paren : Token}
    {arguments : List Expr}
    (here : Here T.setting T.pending w m
      ⟨ctx, owner, state, frames, .expr (.call callee paren arguments)⟩) :
    Keeps T (ev.evalCall callee paren arguments) w m fun w' value m' =>
      value.Valid T.setting T.pending w' m'.heap := by
  have wf : callee.WellFormed ∧ WellFormedExprs arguments := here.ok.wellFormed
  have first : Here T.setting T.pending w m ⟨ctx, owner, state, frames, .expr callee⟩ :=
    here.part List.mem_cons_self rfl rfl
  refine .bind (faithful.eval rfl first) fun w₁ f m₁ steps₁ stands₁ valid => ?_
  have second : Here T.setting T.pending w₁ m₁
      ⟨ctx, owner, callee.resolve ctx state, frames, .exprs arguments⟩ :=
    (here.after steps₁ stands₁).part (List.mem_cons_of_mem _ List.mem_cons_self) rfl
      (callee.resolve_walks ctx state wf.1).scopes
  refine .bind (faithful.evalAll rfl second (by simp)) fun w₂ values m₂ steps₂ stands₂ valid' => ?_
  cases callable : f.callable? with
  | none => exact .failAt stands₂
  | some callable =>
    refine .bind_ask rfl ?_
    split
    next length =>
      have stands₃ : Stands T.setting T.pending w₂ { m₂ with depth := m₂.depth + 1 } :=
        ⟨stands₂.sound, stands₂.globals, stands₂.table⟩
      exact .oneDeeper stands₂ (faithful.invokeRule paren.line stands₃ ‹_›
        (valid.later (steps₂.later _)) valid' length) fun w' value m' valid => valid
    next => exact .failAt stands₂

theorem property {i : InstanceId} {name : Token} (stands : Stands T.setting T.pending w m)
    (lt : i < m.heap.instances.size) :
    Keeps T (Evaluator.property i name) w m fun w' value m' =>
      value.Valid T.setting T.pending w' m'.heap := by
  have found := Array.getElem?_eq_getElem lt
  refine .bind_object found ?_
  cases field : m.heap.instances[i].fields.find? name.lexeme with
  | some value => exact .pure stands (stands.sound.fields i _ _ _ found field)
  | none =>
    refine .bind_ask rfl ?_
    cases method : m.heap.findMethod? m.heap.instances[i].classId name.lexeme with
    | none => exact .failAt stands
    | some id =>
      refine .map (keeps_bindMethod stands (stands.sound.findMethod method) lt) ?_
      rintro w' bound m' - - ⟨closure, s, -, bound', code⟩
      exact ⟨_, bound', code⟩

theorem evalSuper {id : RefId} {keyword method : Token}
    (piece : v.piece = .expr (.super id keyword method)) (here : Here T.setting T.pending w m v) :
    Keeps T (Evaluator.evalSuper id keyword method) w m fun w' value m' =>
      value.Valid T.setting T.pending w' m'.heap := by
  obtain ⟨-, -, c, i, -, s', -, -, -, -, -, -, -, this, bindings⟩ := superBindings_ok piece here
  refine .bind_ask bindings (.bind_ask rfl ?_)
  cases found : m.heap.findMethod? c method.lexeme with
  | none => exact .failAt here.stands
  | some id =>
    have lt : i < m.heap.instances.size := here.stands.sound.values _ _ _ this
    refine .map (keeps_bindMethod here.stands (here.stands.sound.findMethod found) lt) ?_
    rintro w' bound m' - - ⟨closure, s, -, bound', code⟩
    exact ⟨_, bound', code⟩

theorem evalRule (faithful : Faithful T ev) {e : Expr} (accounts : Accounts T ev (.expr e) m)
    (piece : v.piece = .expr e) (here : Here T.setting T.pending w m v) :
    Keeps T (ev.evalRule e) w m fun w' value m' =>
      value.Valid T.setting T.pending w' m'.heap := by
  obtain ⟨ctx, owner, state, frames, _⟩ := v
  cases piece
  have stands := here.stands
  have wf := here.ok.wellFormed
  cases e with
  | literal literal =>
    refine .pure stands ?_
    cases literal <;> trivial
  | grouping e => exact faithful.eval rfl (here.part List.mem_cons_self rfl rfl)
  | unary operator e =>
    have wf : [Symbol.bang, .minus].any operator.is ∧ e.WellFormed := wf
    refine .bind (faithful.eval rfl (here.part List.mem_cons_self rfl rfl)) ?_
    intro w' value m' _ stands' _
    exact keeps_operator stands' (Operator.unary_fair wf.1 value)
  | binary left operator right =>
    have wf : binarySymbols.any operator.is ∧ left.WellFormed ∧ right.WellFormed := wf
    refine .bind (faithful.eval rfl (here.part List.mem_cons_self rfl rfl)) ?_
    intro w₁ a m₁ steps₁ stands₁ _
    have second := (here.after steps₁ stands₁).part (List.mem_cons_of_mem _ List.mem_cons_self) rfl
      (left.resolve_walks ctx state wf.2.1).scopes
    refine .bind (faithful.eval rfl second) ?_
    intro w₂ b m₂ _ stands₂ _
    exact keeps_operator stands₂ (Operator.binary_fair wf.1 m₂.heap a b)
  | logical left operator right =>
    have wf : left.WellFormed ∧ right.WellFormed := wf
    refine .bind (faithful.eval rfl (here.part List.mem_cons_self rfl rfl)) ?_
    intro w₁ a m₁ steps₁ stands₁ valid
    split
    next => exact .pure stands₁ valid
    next =>
      exact faithful.eval rfl ((here.after steps₁ stands₁).part
        (List.mem_cons_of_mem _ List.mem_cons_self) rfl (left.resolve_walks ctx state wf.1).scopes)
  | «variable» id name =>
    exact keeps_readRef here here.ok.variable_distance
      (accounts.premature id name m (.inl ⟨rfl, rfl⟩))
  | assign id name e =>
    have wf : name.Plain ∧ e.WellFormed := wf
    have first := faithful.eval rfl (here.part List.mem_cons_self rfl rfl)
    -- The variable is looked for where the value is known, so how that came out must be kept.
    refine first.bind_eq ?_
    intro w' value m' result steps stands' valid
    refine .bind (keeps_writeRef (here.after steps stands') here.ok.assign_distance wf.1 valid ?_) ?_
    · exact accounts.premature id name m' (.inr ⟨e, value, rfl, result⟩)
    · exact fun w'' _ m'' _ stands'' valid' => .pure stands'' valid'
  | call callee paren arguments => exact faithful.evalCall here
  | get e name =>
    refine .bind (faithful.eval rfl (here.part List.mem_cons_self rfl rfl)) ?_
    intro w' value m' _ stands' valid
    cases value with
    | instanceRef i => exact property stands' valid
    | _ => exact .failAt stands'
  | set object name e =>
    have wf : object.WellFormed ∧ e.WellFormed := wf
    -- Resolution passes over the value first, the machine over the object.
    have second := here.part (List.mem_cons_of_mem _ List.mem_cons_self) rfl
      (e.resolve_walks ctx state wf.2).scopes
    refine .bind (faithful.eval rfl second) ?_
    intro w₁ value m₁ steps₁ stands₁ valid
    cases value with
    | instanceRef i =>
      refine .bind (faithful.eval rfl ((here.after steps₁ stands₁).part List.mem_cons_self rfl rfl)) ?_
      intro w₂ value m₂ steps₂ stands₂ valid'
      have grows := m₂.heap.grows_setField i name.lexeme value
      exact .bind_ok rfl (.of_heap List.prefix_rfl grows)
        (.pure (stands₂.of_heap (stands₂.sound.setField i name.lexeme valid'))
          (valid'.later (.of_grows List.prefix_rfl grows)))
    | _ => exact .failAt stands₁
  | this id keyword => exact keeps_this rfl here
  | super id keyword method => exact evalSuper rfl here
  | function f =>
    -- The function keeps the scope it is made in, which is where the walk was when it visited it.
    let u : Visit := ⟨ctx.inFunction .anonymous, owner, state, frames, .function f⟩
    have known : T.setting.Known u := T.setting.parts _ u here.known List.mem_cons_self
    refine .bind_currentScope (.map (Q := fun w' id m' => w' = w ∧ id = m.heap.closures.size ∧
      m'.heap = m.heap.addClosure ⟨f, m.scope, false⟩) ?_ ?_)
    · exact .of_ok rfl (.of_heap List.prefix_rfl (m.heap.grows_addClosure _))
        (stands.of_heap (stands.sound.addClosure _)) ⟨rfl, rfl, rfl⟩
    · rintro w' id m' steps - ⟨rfl, rfl, same⟩
      refine ⟨_, by rw [same]; exact m.heap.closures_addClosure _, u, known, rfl, rfl, ?_, by simp⟩
      exact here.chain.later (steps.later _)

end Faithful

end Quill
