import Quill.Evaluator
import Quill.Proofs.Simulation.Names

set_option autoImplicit false

namespace Quill

structure Here (S : Setting) (p : Pending) (w : World) (m : Machine) (v : Visit) : Prop where
  stands : Stands S p w m
  known : S.Known v
  chain : Chain S.globals p w m.heap m.scope v.state.scopes v.frames

namespace Here

variable {S : Setting} {p : Pending} {w w' : World} {m m' : Machine} {v : Visit}

theorem ok (here : Here S p w m v) : v.Ok S.table S.sites :=
  S.ok v here.known

theorem after (here : Here S p w m v) (steps : Steps w w' m m') (stands : Stands S p w' m') :
    Here S p w' m' v := by
  refine ⟨stands, here.known, ?_⟩
  rw [steps.scope]
  exact here.chain.later (steps.later p)

theorem part (here : Here S p w m v) {u : Visit} (mem : u ∈ v.parts) (frames : u.frames = v.frames)
    (scopes : u.state.scopes = v.state.scopes) : Here S p w m u := by
  refine ⟨here.stands, S.parts v u here.known mem, ?_⟩
  rw [frames, scopes]
  exact here.chain

end Here

def Flow.Suits (S : Setting) (p : Pending) (w : World) (m : Machine) (v : Visit) : Flow → Prop
  | .normal => Chain S.globals p w m.heap m.scope v.after.scopes v.frames
  | .returned value => value.Valid S p w m.heap ∧ v.ctx.function ≠ .topLevel
  | .broke => v.ctx.loopDepth ≠ 0

structure Faithful (T : Terms) (ev : Evaluator) : Prop where
  eval : ∀ {e : Expr} {v : Visit} {w : World} {m : Machine}, v.piece = .expr e →
    Here T.setting T.pending w m v →
      Keeps T (ev.eval e) w m fun w' value m' => value.Valid T.setting T.pending w' m'.heap
  exec : ∀ {s : Stmt} {v : Visit} {w : World} {m : Machine}, v.piece = .stmt s →
    Here T.setting T.pending w m v →
      Keeps T (ev.exec s) w m fun w' flow m' => flow.Suits T.setting T.pending w' m' v

theorem Heap.findMethod?_congr {h h' : Heap} (same : h.classes = h'.classes) (c : ClassId)
    (name : String) : h.findMethod? c name = h'.findMethod? c name := by
  induction c using Nat.strongRecOn with
  | _ c ih =>
    unfold findMethod?
    rw [same]
    split
    next => rfl
    next cls _ =>
      split
      next => rfl
      next =>
        split
        next => rfl
        next q _ =>
          split
          next lt => exact ih q lt
          next => rfl

theorem Heap.closures_addClosure (h : Heap) (closure : Closure) :
    (h.addClosure closure).closures[h.closures.size]? = some closure := by
  unfold addClosure
  exact Array.getElem?_push_size

section Methods

variable {S : Setting} {p : Pending} {w : World} {m : Machine} {T : Terms}

theorem Sound.findMethod {h : Heap} (sound : Sound S p w h) {c : ClassId} {name : String}
    {id : FunctionId} (found : h.findMethod? c name = some id) : Method S p w h id := by
  induction c using Nat.strongRecOn generalizing id with
  | _ c ih =>
    unfold Heap.findMethod? at found
    split at found
    next => cases found
    next cls hc =>
      split at found
      next method own =>
        cases found
        exact sound.methods c cls name _ hc own
      next =>
        split at found
        next => cases found
        next q _ =>
          split at found
          next lt => exact ih q lt found
          next => cases found

theorem keeps_bindMethod {method : FunctionId} {i : InstanceId}
    (stands : Stands T.setting T.pending w m)
    (isMethod : Method T.setting T.pending w m.heap method) (lt : i < m.heap.instances.size) :
    Keeps T (Evaluator.bindMethod method i) w m fun w' id m' =>
      ∃ closure s, m.heap.closures[method]? = some closure ∧
        m'.heap.closures[id]? = some { closure with scope := s } ∧
        Callable.Code T.setting T.pending w' m'.heap { closure with scope := s } := by
  obtain ⟨closure, found, v, scope, scopes, frames, known, piece, outside, same, same', chain⟩ :=
    isMethod
  have sound := stands.sound.addWord "this" (.instanceRef i) closure.scope .receiver lt rfl
    fun h' bound => ⟨i, bound⟩
  -- The scope that holds `this` takes the place of the one around the methods of the class.
  have fits := (T.setting.ok v known).fits
  rw [same, same'] at fits
  have pushed := chain.pushWord "this" (.instanceRef i) .receiver stands.sound.size
    fun x hx => (fits.1 x).mp hx
  refine .bind_object found (.bind_ok rfl (.of_heap (List.prefix_append w [.receiver])
    (m.heap.grows_addScope _)) ?_)
  refine .of_ok rfl (.of_heap List.prefix_rfl (Heap.grows_addClosure _ _))
    ((stands.of_heap sound).of_heap (sound.addClosure _))
    ⟨closure, m.heap.scopes.size, found, Heap.closures_addClosure _ _, v, known, piece, outside, ?_,
      fun _ => ⟨frames, same'⟩⟩
  rw [same, same']
  exact pushed.later (.of_grows List.prefix_rfl (Heap.grows_addClosure _ _))

end Methods

section Parameters

theorem bindParams_ok {params : List Token} {values : List Value} {vars vars' : Bindings Value}
    (result : Evaluator.bindParams params values vars = .ok vars')
    (length : values.length = params.length) :
    (∀ x, vars'.contains x ↔ vars.contains x ∨ ∃ p ∈ params, p.lexeme = x) ∧
      ∀ x v, vars'.find? x = some v → vars.find? x = some v ∨ v ∈ values := by
  induction params generalizing values vars with
  | nil =>
    cases values with
    | nil =>
      cases result
      exact ⟨fun x => by simp, fun x v found => .inl found⟩
    | cons => cases length
  | cons param params ih =>
    cases values with
    | nil => cases length
    | cons value values =>
      unfold Evaluator.bindParams at result
      split at result
      · cases result
      -- The first parameter is among the variables that the others are bound next to.
      · obtain ⟨names, found⟩ := ih result (Nat.succ.inj length)
        refine ⟨fun x => ?_, fun x v found' => ?_⟩
        · rw [names, Bindings.contains_insert]
          simp only [List.mem_cons, exists_eq_or_imp]
          constructor
          · rintro ((rfl | old) | later)
            · exact .inr (.inl rfl)
            · exact .inl old
            · exact .inr (.inr later)
          · rintro (old | rfl | later)
            · exact .inl (.inr old)
            · exact .inl (.inl rfl)
            · exact .inr later
        · rcases found x v found' with here | later
          · rw [Bindings.find?_insert] at here
            split at here
            · cases here
              exact .inr List.mem_cons_self
            · exact .inl here
          · exact .inr (List.mem_cons_of_mem _ later)

theorem bindParams_error {params : List Token} {values : List Value} {vars : Bindings Value}
    {e : Error} (result : Evaluator.bindParams params values vars = .error e) :
    ∃ fault line, e = .runtime fault line := by
  induction params generalizing values vars with
  | nil => cases result
  | cons param params ih =>
    cases values with
    | nil => cases result
    | cons value values =>
      unfold Evaluator.bindParams at result
      split at result
      · cases result
        exact ⟨_, _, rfl⟩
      · exact ih result

theorem foldl_withName_cons (params : List Token) (scope : Bindings Bool)
    (outer : List (Bindings Bool)) :
    ∃ scope', params.foldl withName (scope :: outer) = scope' :: outer ∧
      ∀ x, scope'.contains x ↔ scope.contains x ∨ ∃ p ∈ params, p.lexeme = x := by
  induction params generalizing scope with
  | nil => exact ⟨scope, rfl, fun x => by simp⟩
  | cons param params ih =>
    obtain ⟨scope₁, same, found⟩ := withName_cons scope outer param
    obtain ⟨scope₂, same', names⟩ := ih scope₁
    refine ⟨scope₂, by rw [List.foldl_cons, same, same'], fun x => ?_⟩
    have own : scope₁.contains x ↔ param.lexeme = x ∨ scope.contains x := by
      rw [Bindings.contains_iff, found, Bindings.contains_iff]
      by_cases same : x = param.lexeme
      · simp [same]
      · simp [same, Ne.symm same]
    rw [names, own]
    simp only [List.mem_cons, exists_eq_or_imp]
    rw [or_comm (a := param.lexeme = x), or_assoc]

end Parameters

theorem keeps_giveResult {T : Terms} {w : World} {m : Machine} {closure : Closure} {value : Value}
    (line : Nat) (stands : Stands T.setting T.pending w m)
    (code : Callable.Code T.setting T.pending w m.heap closure)
    (valid : value.Valid T.setting T.pending w m.heap) :
    Keeps T (Evaluator.giveResult closure line value) w m fun w' value m' =>
      value.Valid T.setting T.pending w' m'.heap := by
  unfold Evaluator.giveResult
  split
  next isInit =>
    -- The code of an initializer lies right inside the scope that holds its instance.
    obtain ⟨v, -, -, -, chain, init⟩ := code
    obtain ⟨outer, same⟩ := init isInit
    rw [same] at chain
    obtain ⟨_, _, q, -, here, -, link, -⟩ := chain.uncons
    have inner : closure.scope ≠ T.setting.globals := by
      intro same'
      rw [same', stands.sound.outermost] at link
      cases link
    obtain ⟨i, found⟩ := stands.sound.holds _ _ inner here
    have result : m.heap.getAt closure.scope 0 "this" line = .ok (.instanceRef i) := by
      unfold Heap.getAt Heap.slotAt Heap.ancestor?
      simp only [Heap.slotIn?_eq, found]
      rfl
    refine .ask stands (fun a same' => ?_) fun e failed => ?_
    · rw [result] at same'
      cases same'
      exact stands.sound.values _ _ _ found
    · rw [result] at failed
      cases failed
  next => exact .pure stands valid

theorem Callable.Code.enter {T : Terms} {w : World} {m : Machine} {closure : Closure}
    {arguments : List Value} {vars : Bindings Value}
    (code : Callable.Code T.setting T.pending w m.heap closure)
    (stands : Stands T.setting T.pending w m)
    (valid : ∀ v ∈ arguments, v.Valid T.setting T.pending w m.heap)
    (length : arguments.length = closure.code.arity)
    (bound : Evaluator.bindParams closure.code.params arguments {} = .ok vars) :
    ∃ (u : Visit) (frame : Frame), u.piece = .stmts closure.code.body ∧ u.ctx.loopDepth = 0 ∧
      Here T.setting T.pending (w ++ [frame])
        { m with heap := m.heap.addScope ⟨vars, some closure.scope⟩, scope := m.heap.scopes.size }
        u := by
  obtain ⟨⟨ctx, owner, state, frames, _⟩, known, piece, outside, chain, -⟩ := code
  obtain ⟨⟨label, params, body⟩, scope, isInitializer⟩ := closure
  cases piece
  obtain ⟨names, values⟩ := bindParams_ok bound length
  let state' := params.foldl Resolution.declareAndDefine state.openScope
  let all := (resolveStmts ctx body state').innermost
  let u : Visit := ⟨ctx, owner, state', .names all :: frames, .stmts body⟩
  have known' : T.setting.Known u := T.setting.parts _ u known List.mem_cons_self
  obtain ⟨static, opened, recorded⟩ := foldl_withName_cons params {} state.scopes
  have scopes : state'.scopes = static :: state.scopes :=
    (declareAll_scopes params state.openScope).trans opened
  have fits : FitAll (static :: state.scopes) (.names all :: frames) :=
    scopes ▸ (T.setting.ok u known').fits
  -- The walk has declared the same names by now as the call has bound: the parameters.
  have names' (x : String) : static.contains x ↔ vars.contains x := by
    rw [recorded, names]
    exact Iff.rfl
  have sound : Sound T.setting T.pending (w ++ [.names all])
      (m.heap.addScope ⟨vars, some scope⟩) := by
    refine stands.sound.addScope (fun x v bound => ⟨?_, ?_⟩) trivial
    · exact valid v ((values x v bound).resolve_left (fun empty => by cases empty))
    · exact (fits.1 x ((names' x).mpr ((vars.contains_iff x).mpr ⟨v, bound⟩))).1
  have pushed := chain.push vars static (.names all) stands.sound.size fun x => (names' x).mp
  exact ⟨u, .names all, rfl, outside, ⟨sound, stands.globals, stands.table⟩, known', scopes ▸ pushed⟩

namespace Faithful

variable {T : Terms} {ev : Evaluator} {w : World} {m : Machine} {v : Visit}

theorem sequence (faithful : Faithful T ev) {body : List Stmt} (piece : v.piece = .stmts body)
    (here : Here T.setting T.pending w m v) :
    Keeps T (ev.sequence body) w m fun w' flow m' =>
      flow.Suits T.setting T.pending w' m' v := by
  induction body generalizing v w m with
  | nil =>
    obtain ⟨ctx, owner, state, frames, _⟩ := v
    cases piece
    exact .pure here.stands here.chain
  | cons s body ih =>
    obtain ⟨ctx, owner, state, frames, _⟩ := v
    cases piece
    have first : Here T.setting T.pending w m ⟨ctx, owner, state, frames, .stmt s⟩ :=
      here.part List.mem_cons_self rfl rfl
    refine .bind (faithful.exec rfl first) fun w' flow m' _ stands suits => ?_
    cases flow with
    | normal =>
      have known := T.setting.parts _ ⟨ctx, owner, s.resolve ctx state, frames, .stmts body⟩
        here.known (List.mem_cons_of_mem _ List.mem_cons_self)
      exact ih (v := ⟨ctx, owner, s.resolve ctx state, frames, .stmts body⟩) rfl
        ⟨stands, known, suits⟩
    | returned value => exact .pure stands suits
    | broke => exact .pure stands suits

theorem callClosure (faithful : Faithful T ev) {id : FunctionId} {closure : Closure}
    {arguments : List Value} (line : Nat) (stands : Stands T.setting T.pending w m)
    (found : m.heap.closures[id]? = some closure)
    (code : Callable.Code T.setting T.pending w m.heap closure)
    (valid : ∀ v ∈ arguments, v.Valid T.setting T.pending w m.heap)
    (length : arguments.length = closure.code.arity) :
    Keeps T (ev.callClosure id arguments line) w m fun w' value m' =>
      value.Valid T.setting T.pending w' m'.heap := by
  refine .bind_object found ?_
  cases bound : Evaluator.bindParams closure.code.params arguments {} with
  | error e =>
    obtain ⟨fault, line', rfl⟩ := bindParams_error bound
    exact .bind_ask_error stands rfl trivial
  | ok vars =>
    obtain ⟨u, frame, piece, outside, here⟩ := code.enter stands valid length bound
    have opens := Steps.of_heap (m := m) (List.prefix_append w [frame])
      (m.heap.grows_addScope ⟨vars, some closure.scope⟩)
    refine .bind_ask rfl (.bind_ok rfl opens ?_)
    -- Outside of all loops the body cannot break, so it ends normally or gives a value.
    refine .bind (Q := fun w' flow m' => flow ≠ .broke ∧
      ∀ value, flow = .returned value → value.Valid T.setting T.pending w' m'.heap) ?_ ?_
    · refine .inScope (faithful.sequence piece here) fun w' flow m' _ _ suits => ?_
      cases flow with
      | normal => exact ⟨by simp, by simp⟩
      | returned value => exact ⟨by simp, fun _ same => by cases same; exact suits.1⟩
      | broke => exact absurd outside suits
    · rintro w' flow m' steps stands' ⟨stays, result⟩
      obtain ⟨v, known, piece', outside', chain, init⟩ := code
      have code' : Callable.Code T.setting T.pending w' m'.heap closure :=
        ⟨v, known, piece', outside', chain.later ((opens.trans steps).later _), init⟩
      cases flow with
      | normal => exact keeps_giveResult line stands' code' trivial
      | returned value => exact keeps_giveResult line stands' code' (result value rfl)
      | broke => exact absurd rfl stays

theorem construct (faithful : Faithful T ev) {c : ClassId} {arguments : List Value} (line : Nat)
    (stands : Stands T.setting T.pending w m) (lt : c < m.heap.classes.size)
    (valid : ∀ v ∈ arguments, v.Valid T.setting T.pending w m.heap)
    (length : arguments.length = m.heap.classArity c) :
    Keeps T (ev.construct c arguments line) w m fun w' value m' =>
      value.Valid T.setting T.pending w' m'.heap := by
  let h := m.heap.addInstance ⟨c, {}⟩
  let i := m.heap.instances.size
  have grows : m.heap.Grows h := m.heap.grows_addInstance _
  have stands' : Stands T.setting T.pending w { m with heap := h } :=
    stands.of_heap (stands.sound.addInstance lt)
  have fresh : i < h.instances.size := by simp [h, i, Heap.addInstance]
  refine .bind_ok rfl (.of_heap List.prefix_rfl grows) (.bind_ask rfl ?_)
  cases found : h.findMethod? c initializerName with
  | none => exact .pure stands' fresh
  | some method =>
    have isMethod := stands'.sound.findMethod found
    refine .bind (keeps_bindMethod stands' isMethod fresh) ?_
    rintro w₁ bound m₁ steps stands₁ ⟨closure, s, found', bound', code⟩
    -- The arguments were counted before the instance was made, but classes stay as they are.
    have arity : m.heap.classArity c = closure.code.arity := by
      have same : m.heap.classes = h.classes := rfl
      unfold Heap.classArity
      rw [Heap.findMethod?_congr same, found]
      change h.closureArity method = _
      unfold Heap.closureArity
      rw [found']
    refine .bind (faithful.callClosure line stands₁ bound' code ?_ (length.trans arity)) ?_
    · intro v mem
      exact (valid v mem).later (.of_grows steps.world (grows.trans steps.grows))
    · intro w₂ _ m₂ steps' stands₂ _
      exact .pure stands₂ (steps'.grows.instances_size (steps.grows.instances_size fresh))

theorem callNative (stands : Stands T.setting T.pending w m) (arguments : List Value) (line : Nat) :
    Keeps T (ev.callNative 0 arguments line) w m fun w' value m' =>
      value.Valid T.setting T.pending w' m'.heap := by
  refine .bind_object (a := .clock) ?_ (.readClock stands fun _ _ _ _ => trivial)
  rw [stands.sound.natives]
  rfl

theorem invokeRule (faithful : Faithful T ev) {f : Value} {callee : Callable}
    {arguments : List Value} (line : Nat) (stands : Stands T.setting T.pending w m)
    (callable : f.callable? = some callee) (valid : f.Valid T.setting T.pending w m.heap)
    (valid' : ∀ v ∈ arguments, v.Valid T.setting T.pending w m.heap)
    (length : arguments.length = m.heap.arity callee) :
    Keeps T (ev.invokeRule callee arguments line) w m fun w' value m' =>
      value.Valid T.setting T.pending w' m'.heap := by
  cases f with
  | function id =>
    cases callable
    obtain ⟨closure, found, code⟩ := valid
    refine faithful.callClosure line stands found code valid' (length.trans ?_)
    change m.heap.closureArity id = _
    unfold Heap.closureArity
    rw [found]
  | native id =>
    cases callable
    obtain rfl : id = 0 := valid
    exact callNative stands arguments line
  | classRef c =>
    cases callable
    exact faithful.construct line stands valid valid' length
  | nil | boolean _ | number _ | string _ | instanceRef _ => cases callable

end Faithful

end Quill
