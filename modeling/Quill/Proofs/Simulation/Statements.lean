import Quill.Proofs.Simulation.Expressions

set_option autoImplicit false

namespace Quill

def Pending.during (p : Pending) (t : Task) (m : Machine) : Pending :=
  match t with
  | .stmt (.var name (some _)) => fun s x => p s x ∨ s = m.scope ∧ x = name.lexeme
  | _ => p

theorem Pending.during_iff (p : Pending) (t : Task) (m : Machine) (s : ScopeId) (x : String) :
    p.during t m s x ↔
      p s x ∨ ∃ name e, t = .stmt (.var name (some e)) ∧ m.scope = s ∧ name.lexeme = x := by
  unfold Pending.during
  split
  next name e =>
    refine or_congr_right ⟨?_, ?_⟩
    · rintro ⟨rfl, rfl⟩
      exact ⟨name, e, rfl, rfl, rfl⟩
    · rintro ⟨name', e', same, rfl, rfl⟩
      cases same
      exact ⟨rfl, rfl⟩
  next other =>
    refine ⟨.inl, fun h => h.elim id ?_⟩
    rintro ⟨name, e, same, -⟩
    exact absurd same (other name e)

def Terms.during (T : Terms) (t : Task) (m : Machine) : Terms :=
  { T with pending := T.pending.during t m }

theorem afterStmt_of_declared {s : Stmt} {name : Token} (scopes : List (Bindings Bool))
    (h : s.declared? = some name) : afterStmt scopes s = withName scopes name := by
  unfold afterStmt
  rw [h]

namespace Here

variable {S : Setting} {p : Pending} {w : World} {m : Machine} {v : Visit}

theorem inside (here : Here S p w m v) : m.scope < m.heap.scopes.size := by
  have chain := here.chain
  cases frames : v.frames with
  | cons frame outer =>
    rw [frames] at chain
    obtain ⟨-, -, -, -, found, -⟩ := chain.uncons
    rw [← here.stands.sound.size]
    exact (List.getElem?_eq_some_iff.mp found).1
  | nil =>
    rw [frames] at chain
    cases scopes : v.state.scopes with
    | cons => rw [scopes] at chain; cases chain
    | nil =>
      rw [scopes] at chain
      have global : m.scope = S.globals := chain
      rw [global]
      exact here.stands.sound.root

theorem records (here : Here S p w m v) {s : Stmt} {name : Token} (piece : v.piece = .stmt s)
    (declared : s.declared? = some name) (inner : m.scope ≠ S.globals) :
    ∃ frame, w[m.scope]? = some frame ∧ frame.Records name.lexeme := by
  have chain := here.chain
  have fits := here.ok.fitsAfter
  rw [here.ok.after_scopes, piece] at fits
  change FitAll (afterStmt v.state.scopes s) v.frames at fits
  rw [afterStmt_of_declared _ declared] at fits
  cases frames : v.frames with
  | cons frame outer =>
    rw [frames] at chain fits
    obtain ⟨scope, rest, -, same, found, -⟩ := chain.uncons
    rw [same] at fits
    obtain ⟨scope', same', found'⟩ := withName_cons scope rest name
    rw [same'] at fits
    refine ⟨frame, found, fits.1.records ?_⟩
    rw [Bindings.contains_iff, found', if_pos rfl]
    exact ⟨true, rfl⟩
  | nil =>
    rw [frames] at chain
    cases scopes : v.state.scopes with
    | cons => rw [scopes] at chain; cases chain
    | nil =>
      rw [scopes] at chain
      exact absurd chain inner

theorem after_scopes (here : Here S p w m v) {s : Stmt} (piece : v.piece = .stmt s) :
    v.after.scopes = afterStmt v.state.scopes s := by
  rw [here.ok.after_scopes, piece]
  rfl

theorem suits_normal (here : Here S p w m v) {s : Stmt} (piece : v.piece = .stmt s)
    (silent : s.declares = false) : Flow.normal.Suits S p w m v := by
  change Chain _ _ _ _ _ v.after.scopes _
  rw [here.after_scopes piece, afterStmt_of_not_declares _ silent]
  exact here.chain

theorem suits_declared (here : Here S p w m v) {s : Stmt} {name : Token} (piece : v.piece = .stmt s)
    (declared : s.declared? = some name) (bound : m.heap.Binds m.scope name.lexeme) :
    Flow.normal.Suits S p w m v := by
  change Chain _ _ _ _ _ v.after.scopes _
  rw [here.after_scopes piece, afterStmt_of_declared _ declared]
  exact here.chain.withName bound

theorem suits (here : Here S p w m v) {s : Stmt} (piece : v.piece = .stmt s)
    (silent : s.declares = false) {u : Visit} {m' : Machine} {flow : Flow}
    (finished : flow.Suits S p w m' u) (heap : m'.heap = m.heap)
    (function : u.ctx.function = v.ctx.function) (loop : u.ctx.loopDepth = v.ctx.loopDepth) :
    flow.Suits S p w m v := by
  cases flow with
  | normal => exact here.suits_normal piece silent
  | returned value =>
    refine ⟨?_, function ▸ finished.2⟩
    rw [← heap]
    exact finished.1
  | broke =>
    intro outside
    exact finished (loop.trans outside)

end Here

theorem Heap.binds_write {h : Heap} {s : ScopeId} (name : String) (value : Value)
    (lt : s < h.scopes.size) : (h.write s name value).Binds s name :=
  ⟨value, by rw [value?_write, if_pos ⟨rfl, rfl, lt⟩]⟩

section Define

variable {T : Terms} {w : World} {m : Machine} {name : Token} {value : Value}

theorem keeps_define {p : Pending} (stands : Stands T.setting p w m)
    (settles : ∀ s x, p s x → T.pending s x ∨ s = m.scope ∧ x = name.lexeme)
    (inside : m.scope < m.heap.scopes.size) (plain : name.Plain)
    (records : m.scope ≠ T.setting.globals →
      ∃ frame, w[m.scope]? = some frame ∧ frame.Records name.lexeme)
    (valid : value.Valid T.setting p w (m.heap.write m.scope name.lexeme value)) :
    Keeps T (Run.define name value) w m fun w' _ m' =>
      w' = w ∧ m' = { m with heap := m.heap.write m.scope name.lexeme value } := by
  have bound := Heap.binds_write name.lexeme value inside
  -- Refused or not, the name is bound in the end, and so it is not outstanding any more.
  cases found : m.heap.value? m.scope name.lexeme with
  | some old =>
    have same : Run.define name value m =
        .error (.error (.runtime (.redefined name.lexeme) name.line)) m := by
      unfold Run.define Heap.definable
      rw [Heap.slotIn?_eq, found]
      rfl
    refine .of_error same (.refl w m) (stands.settle fun s x open' => ?_) trivial
    rcases settles s x open' with open' | ⟨rfl, rfl⟩
    · exact .inl (.inl open')
    · exact .inr ⟨old, found⟩
  | none =>
    have same : Run.define name value m =
        .ok () { m with heap := m.heap.write m.scope name.lexeme value } := by
      unfold Run.define Heap.definable
      rw [Heap.slotIn?_eq, found]
      rfl
    have stands' := stands.of_heap (stands.sound.write plain.not_reserved valid records)
    refine .of_ok same (.of_heap List.prefix_rfl (m.heap.grows_write plain.not_reserved))
      (stands'.settle fun s x open' => ?_) ⟨rfl, rfl⟩
    rcases settles s x open' with open' | ⟨rfl, rfl⟩
    · exact .inl open'
    · exact .inr bound

end Define

namespace Faithful

variable {T : Terms} {ev : Evaluator} {w : World} {m : Machine} {ctx : Context}
  {owner : Option Stmt} {state : Resolution} {frames : List Frame}

theorem execVar {name : Token} {initializer : Option Expr}
    (faithful : Faithful (T.during (.stmt (.var name initializer)) m) ev)
    (accounts : Accounts T ev (.stmt (.var name initializer)) m)
    (here : Here T.setting T.pending w m
      ⟨ctx, owner, state, frames, .stmt (.var name initializer)⟩) :
    Keeps T (ev.execVar name initializer) w m fun w' flow m' => flow.Suits T.setting T.pending w' m'
      ⟨ctx, owner, state, frames, .stmt (.var name initializer)⟩ := by
  have plain : name.Plain := Stmt.plain_of_declared _ here.ok.wellFormed rfl
  cases initializer with
  | none =>
    refine .bind_ok rfl (.refl w m) (.bind (keeps_define here.stands (fun s x open' => .inl open')
      here.inside plain (here.records rfl rfl) trivial) ?_)
    rintro w' - m' steps stands ⟨rfl, rfl⟩
    exact .pure stands ((here.after steps stands).suits_declared rfl rfl
      (Heap.binds_write _ _ here.inside))
  | some e =>
    let T' := T.during (.stmt (.var name (some e))) m
    have known := T.setting.parts _ ⟨ctx, owner, state.declare name, frames, .expr e⟩ here.known
      List.mem_cons_self
    -- While the initializer is evaluated its variable is recorded already, but outstanding.
    have opens : Stands T'.setting T'.pending w m :=
      here.stands.settle fun s x open' => .inl (.inl open')
    have chain : Chain T.setting.globals T'.pending w m.heap m.scope (state.declare name).scopes
        frames := by
      refine Chain.declare (here.chain.later ⟨List.prefix_rfl, .refl _, fun s x open' => ?_⟩) ?_
      · exact .inl (.inl open')
      · exact .inr ⟨rfl, rfl⟩
    have evaluated := faithful.eval rfl ⟨opens, known, chain⟩
    cases result : ev.eval e m with
    | error halt m' =>
      obtain ⟨w', steps, stands, allowed⟩ := evaluated.of_result_error result
      -- The variable will never get a value, and is lost.
      refine .bind_error result steps (stands.settle fun s x open' => .inl ?_) allowed
      rcases open' with (open' | ⟨rfl, rfl⟩) | lost
      · exact .inl open'
      · exact .inr (accounts.lost name e halt m' rfl result)
      · exact .inr lost
    | ok value m' =>
      obtain ⟨w', steps, stands, valid⟩ := evaluated.of_result_ok result
      have inside : m'.scope < m'.heap.scopes.size := by
        rw [steps.scope]
        exact Nat.lt_of_lt_of_le here.inside steps.grows.scopes
      refine .bind_ok result steps (.bind (keeps_define stands ?_ inside plain ?_ ?_) ?_)
      · rw [steps.scope]
        exact fun s x open' => open'
      · rw [steps.scope]
        intro inner
        obtain ⟨frame, found, records⟩ := here.records rfl rfl inner
        exact ⟨frame, (steps.later T.pending).getElem? found, records⟩
      · exact valid.later (.of_grows List.prefix_rfl (m'.heap.grows_write plain.not_reserved))
      · rintro w'' - m'' steps' stands' ⟨rfl, rfl⟩
        exact .pure stands' ((here.after (steps.trans steps') stands').suits_declared rfl rfl
          (Heap.binds_write _ _ inside))

theorem execBlock (faithful : Faithful T ev) {body : List Stmt}
    (here : Here T.setting T.pending w m ⟨ctx, owner, state, frames, .stmt (.block body)⟩) :
    Keeps T (ev.execBlock body) w m fun w' flow m' => flow.Suits T.setting T.pending w' m'
      ⟨ctx, owner, state, frames, .stmt (.block body)⟩ := by
  let all := (resolveStmts ctx body state.openScope).innermost
  let u : Visit := ⟨ctx, owner, state.openScope, .names all :: frames, .stmts body⟩
  have stands := here.stands
  have known : T.setting.Known u := T.setting.parts _ u here.known List.mem_cons_self
  have grows := m.heap.grows_addScope ⟨{}, some m.scope⟩
  have sound : Sound T.setting T.pending (w ++ [.names all])
      (m.heap.addScope ⟨{}, some m.scope⟩) :=
    stands.sound.addScope (fun x v bound => by cases bound) trivial
  have steps : Steps w (w ++ [.names all]) m { m with heap := m.heap.addScope ⟨{}, some m.scope⟩ } :=
    .of_heap (List.prefix_append _ _) grows
  have pushed : Chain T.setting.globals T.pending (w ++ [.names all])
      (m.heap.addScope ⟨{}, some m.scope⟩) m.heap.scopes.size ({} :: state.scopes)
      (.names all :: frames) :=
    here.chain.push {} {} (.names all) stands.sound.size fun x hx => by cases hx
  have inner : Here T.setting T.pending (w ++ [.names all])
      { m with heap := m.heap.addScope ⟨{}, some m.scope⟩, scope := m.heap.scopes.size } u :=
    ⟨⟨sound, stands.globals, stands.table⟩, known, pushed⟩
  refine .bind_currentScope (.bind_ok rfl steps (.inScope (faithful.sequence rfl inner) ?_))
  intro w' flow m' steps' stands' suits
  exact (here.after (steps.trans steps') stands').suits rfl rfl suits rfl rfl rfl

theorem execConditional (faithful : Faithful T ev) {condition : Expr} {thenBranch : Stmt}
    {elseBranch : Option Stmt}
    (here : Here T.setting T.pending w m
      ⟨ctx, owner, state, frames, .stmt (.conditional condition thenBranch elseBranch)⟩) :
    Keeps T (ev.execConditional condition thenBranch elseBranch) w m fun w' flow m' =>
      flow.Suits T.setting T.pending w' m'
        ⟨ctx, owner, state, frames, .stmt (.conditional condition thenBranch elseBranch)⟩ := by
  have wf : condition.WellFormed ∧ thenBranch.WellFormed ∧ thenBranch.declares = false := by
    have wf := here.ok.wellFormed
    cases elseBranch with
    | none => exact wf
    | some => exact ⟨wf.1, wf.2.1⟩
  have same := (condition.resolve_walks ctx state wf.1).scopes
  have first : Here T.setting T.pending w m ⟨ctx, owner, state, frames, .expr condition⟩ :=
    here.part (by cases elseBranch <;> exact List.mem_cons_self) rfl rfl
  refine .bind (faithful.eval rfl first) fun w' value m' steps stands _ => ?_
  have here' := here.after steps stands
  split
  next =>
    have second : Here T.setting T.pending w' m'
        ⟨ctx, owner, condition.resolve ctx state, frames, .stmt thenBranch⟩ :=
      here'.part (by cases elseBranch <;> exact List.mem_cons_of_mem _ List.mem_cons_self) rfl same
    refine (faithful.exec rfl second).imp fun w'' flow m'' steps' stands' suits => ?_
    exact (here'.after steps' stands').suits rfl rfl suits rfl rfl rfl
  next =>
    cases elseBranch with
    | none => exact .pure stands (here'.suits_normal rfl rfl)
    | some elseBranch =>
      -- Resolution comes from the branch that is not taken, which declares nothing by itself.
      have third : Here T.setting T.pending w' m' ⟨ctx, owner,
          thenBranch.resolve ctx (condition.resolve ctx state), frames, .stmt elseBranch⟩ := by
        refine here'.part (List.mem_cons_of_mem _ (List.mem_cons_of_mem _ List.mem_cons_self)) rfl ?_
        change (thenBranch.resolve ctx (condition.resolve ctx state)).scopes = state.scopes
        rw [(thenBranch.resolve_walks ctx _ wf.2.1).scopes, afterStmt_of_not_declares _ wf.2.2, same]
      refine (faithful.exec rfl third).imp fun w'' flow m'' steps' stands' suits => ?_
      exact (here'.after steps' stands').suits rfl rfl suits rfl rfl rfl

theorem execLoop (faithful : Faithful T ev) {condition : Expr} {body : Stmt} (rounds : Nat)
    (here : Here T.setting T.pending w m
      ⟨ctx, owner, state, frames, .stmt (.loop condition body)⟩) :
    Keeps T (ev.execLoop condition body rounds) w m fun w' flow m' =>
      flow.Suits T.setting T.pending w' m'
        ⟨ctx, owner, state, frames, .stmt (.loop condition body)⟩ := by
  induction rounds generalizing w m with
  | zero => exact .outOfFuel here.stands
  | succ rounds ih =>
    have wf : condition.WellFormed ∧ body.WellFormed ∧ body.declares = false := here.ok.wellFormed
    have first : Here T.setting T.pending w m ⟨ctx, owner, state, frames, .expr condition⟩ :=
      here.part List.mem_cons_self rfl rfl
    refine .bind (faithful.eval rfl first) fun w₁ value m₁ steps₁ stands₁ _ => ?_
    have here₁ := here.after steps₁ stands₁
    split
    next =>
      have second : Here T.setting T.pending w₁ m₁
          ⟨ctx.inLoop, owner, condition.resolve ctx state, frames, .stmt body⟩ :=
        here₁.part (List.mem_cons_of_mem _ List.mem_cons_self) rfl
          (condition.resolve_walks ctx state wf.1).scopes
      refine .bind (faithful.exec rfl second) fun w₂ flow m₂ steps₂ stands₂ suits => ?_
      have here₂ := here₁.after steps₂ stands₂
      -- Whatever a round declares is gone with its scopes, so the next one starts at the same place.
      cases flow with
      | normal => exact ih here₂
      | broke => exact .pure stands₂ (here₂.suits_normal rfl rfl)
      | returned value => exact .pure stands₂ suits
    next => exact .pure stands₁ (here₁.suits_normal rfl rfl)

theorem execFunction {f : Function}
    (here : Here T.setting T.pending w m ⟨ctx, owner, state, frames, .stmt (.function f)⟩) :
    Keeps T (Evaluator.execFunction f) w m fun w' flow m' => flow.Suits T.setting T.pending w' m'
      ⟨ctx, owner, state, frames, .stmt (.function f)⟩ := by
  obtain ⟨⟨name, named, plain⟩, -⟩ :
    (∃ name, f.name = some name ∧ name.Plain) ∧ f.WellFormed := here.ok.wellFormed
  obtain ⟨_, params, body⟩ := f
  cases named
  let f : Function := ⟨some name, params, body⟩
  let u : Visit := ⟨ctx.inFunction .function, owner, state.declareAndDefine name, frames, .function f⟩
  have known : T.setting.Known u := T.setting.parts _ u here.known List.mem_cons_self
  let m₁ := { m with heap := m.heap.addClosure ⟨f, m.scope, false⟩ }
  have grows : m.heap.Grows m₁.heap := m.heap.grows_addClosure _
  have steps : Steps w w m m₁ := .of_heap List.prefix_rfl grows
  have here₁ := here.after steps (here.stands.of_heap (here.stands.sound.addClosure _))
  -- The body is resolved with the name declared, and by the time it can be called that is bound.
  refine .bind_currentScope (.bind_ok rfl steps (.bind (keeps_define here₁.stands
    (fun s x open' => .inl open') here₁.inside plain (here₁.records rfl rfl) ?_) ?_))
  · refine ⟨_, m.heap.closures_addClosure _, u, known, rfl, rfl, ?_, by simp⟩
    change Chain _ _ _ _ _ (state.declareAndDefine name).scopes frames
    rw [state.declareAndDefine_scopes]
    refine (here₁.chain.later (.of_grows List.prefix_rfl
      (m₁.heap.grows_write plain.not_reserved))).withName ?_
    exact Heap.binds_write _ _ here₁.inside
  · rintro w' - m' steps' stands' ⟨rfl, rfl⟩
    exact .pure stands' ((here₁.after steps' stands').suits_declared rfl rfl
      (Heap.binds_write _ _ here₁.inside))

theorem methodTable {scope : ScopeId} {methods : List Function} {table : Bindings FunctionId}
    {v : Visit} {first : Bindings Bool} {outer : List (Bindings Bool)} (known : T.setting.Known v)
    (piece : v.piece = .functions methods) (scopes : v.state.scopes = first :: outer)
    (receiver : v.frames = .receiver :: frames) (stands : Stands T.setting T.pending w m)
    (chain : Chain T.setting.globals T.pending w m.heap scope outer frames)
    (old : ∀ x id, table.find? x = some id → Method T.setting T.pending w m.heap id) :
    Keeps T (Evaluator.methodTable scope methods table) w m fun w' table' m' =>
      ∀ x id, table'.find? x = some id → Method T.setting T.pending w' m'.heap id := by
  induction methods generalizing v m table with
  | nil => exact .pure stands old
  | cons f rest ih =>
    obtain ⟨ctx, owner, state, frames', _⟩ := v
    cases piece
    cases receiver
    have wf : f.WellFormed ∧ WellFormedFunctions rest := (T.setting.ok _ known).wellFormed
    let ctx' := ctx.inFunction f.methodKind
    let u : Visit := ⟨ctx', owner, state, .receiver :: frames, .function f⟩
    let u' : Visit := ⟨ctx, owner, f.resolve ctx' state, .receiver :: frames, .functions rest⟩
    have known₁ : T.setting.Known u := T.setting.parts _ u known List.mem_cons_self
    have known₂ : T.setting.Known u' :=
      T.setting.parts _ u' known (List.mem_cons_of_mem _ List.mem_cons_self)
    let closure : Closure := ⟨f, scope, f.label == initializerName⟩
    have grows := m.heap.grows_addClosure closure
    have later : Later T.pending T.pending w w m.heap (m.heap.addClosure closure) :=
      .of_grows List.prefix_rfl grows
    have chain' := chain.later later
    refine .bind_ok rfl (.of_heap List.prefix_rfl grows) ?_
    -- Methods of one name replace each other in the table, and each of them is one of the class.
    refine ih known₂ rfl ((f.resolve_walks ctx' state wf.1).scopes.trans scopes) rfl
      (stands.of_heap (stands.sound.addClosure closure)) chain' fun x id found => ?_
    rw [Bindings.find?_insert] at found
    split at found
    next =>
      cases found
      exact ⟨closure, m.heap.closures_addClosure closure, u, first, outer, frames, known₁, rfl, rfl,
        scopes, rfl, chain'⟩
    next => exact (old x id found).later later

theorem finishClass {name : Token} {parent : Option ClassId} {table : Bindings FunctionId}
    (stands : Stands T.setting T.pending w m) (plain : name.Plain)
    (bound : m.heap.Binds m.scope name.lexeme)
    (methods : ∀ x id, table.find? x = some id → Method T.setting T.pending w m.heap id) :
    Keeps T (do
      let c ← Run.newClass ⟨name.lexeme, parent, table⟩
      Run.assignNearest name (.classRef c)
      pure Flow.normal) w m fun _ flow _ => flow = .normal := by
  let h := m.heap.addClass ⟨name.lexeme, parent, table⟩
  let c := m.heap.classes.size
  have grows : m.heap.Grows h := m.heap.grows_addClass _
  have sound : Sound T.setting T.pending w h := stands.sound.addClass methods
  have grows' : h.Grows (h.write m.scope name.lexeme (.classRef c)) :=
    h.grows_write plain.not_reserved
  obtain ⟨old, found⟩ := grows.binds _ _ bound
  -- The name is bound in the innermost scope, so that is the one the class is put in.
  have assigned : Run.assignNearest name (.classRef c) { m with heap := h } =
      .ok () { m with heap := h.write m.scope name.lexeme (.classRef c) } := by
    unfold Run.assignNearest Heap.slot Heap.nearest?
    simp only [Heap.slotIn?_eq, found]
    rfl
  have valid : (Value.classRef c).Valid T.setting T.pending w
      (h.write m.scope name.lexeme (.classRef c)) :=
    grows'.classes_size (by simp [h, c, Heap.addClass])
  have sound' := sound.write plain.not_reserved valid fun inner => by
    have lt : m.scope < w.length := sound.size ▸ h.value?_lt found
    exact ⟨_, List.getElem?_eq_getElem lt, sound.names _ _ _ inner
      (List.getElem?_eq_getElem lt) ⟨old, found⟩⟩
  exact .bind_ok rfl (.of_heap List.prefix_rfl grows) (.bind_ok assigned
    (.of_heap List.prefix_rfl grows') (.pure (stands.of_heap sound') rfl))

theorem declareClass {name : Token} {superclass : Option Expr} {methods : List Function}
    {w' : World} {m' : Machine} {parent : Option ClassId} {table : Bindings FunctionId}
    (here : Here T.setting T.pending w m
      ⟨ctx, owner, state, frames, .stmt (.classDecl name superclass methods)⟩)
    (bound : m.heap.Binds m.scope name.lexeme) (steps : Steps w w' m m')
    (stands : Stands T.setting T.pending w' m')
    (table' : ∀ x id, table.find? x = some id → Method T.setting T.pending w' m'.heap id) :
    Keeps T (do
      let c ← Run.newClass ⟨name.lexeme, parent, table⟩
      Run.assignNearest name (.classRef c)
      pure Flow.normal) w' m' fun w'' flow m'' => flow.Suits T.setting T.pending w'' m''
        ⟨ctx, owner, state, frames, .stmt (.classDecl name superclass methods)⟩ := by
  have plain : name.Plain := Stmt.plain_of_declared _ here.ok.wellFormed rfl
  have bound' : m'.heap.Binds m'.scope name.lexeme := by
    rw [steps.scope]
    exact steps.grows.binds _ _ bound
  refine (finishClass stands plain bound' table').imp ?_
  rintro w'' flow m'' steps' stands' rfl
  have steps'' := steps.trans steps'
  refine (here.after steps'' stands').suits_declared rfl rfl ?_
  rw [steps''.scope]
  exact steps''.grows.binds _ _ bound

theorem evalSuperclass (faithful : Faithful T ev) {name : Token} {superclass : Expr}
    {methods : List Function} {v : Visit} {m' : Machine}
    (accounts : Accounts T ev (.stmt (.classDecl name (some superclass) methods)) m)
    (piece : v.piece = .expr superclass) (here : Here T.setting T.pending w m' v) :
    Keeps T (ev.evalSuperclass name (some superclass)) w m' fun _ parent m₁ =>
      ∃ c, parent = some c ∧ c < m₁.heap.classes.size ∧
        T.setting.Made m₁.heap.scopes.size c (.classDecl name (some superclass) methods) := by
  refine (faithful.eval piece here).bind_eq ?_
  intro w₁ value m₁ result _ stands₁ valid
  cases value with
  | classRef c =>
    exact .pure stands₁ ⟨c, rfl, valid, accounts.made name superclass methods _ c m₁ rfl result⟩
  | _ => exact .failAt stands₁

theorem execClass (faithful : Faithful T ev) {name : Token} {superclass : Option Expr}
    {methods : List Function}
    (accounts : Accounts T ev (.stmt (.classDecl name superclass methods)) m)
    (here : Here T.setting T.pending w m
      ⟨ctx, owner, state, frames, .stmt (.classDecl name superclass methods)⟩) :
    Keeps T (ev.execClass name superclass methods) w m fun w' flow m' =>
      flow.Suits T.setting T.pending w' m'
        ⟨ctx, owner, state, frames, .stmt (.classDecl name superclass methods)⟩ := by
  have plain : name.Plain := Stmt.plain_of_declared _ here.ok.wellFormed rfl
  refine .bind (keeps_define here.stands (fun s x open' => .inl open') here.inside plain
    (here.records rfl rfl) trivial) ?_
  rintro w - m₁ steps₁ stands₁ ⟨rfl, rfl⟩
  have bound := Heap.binds_write name.lexeme .nil here.inside
  have here₁ := here.after steps₁ stands₁
  have chain₁ := here₁.chain.withName bound
  cases superclass with
  | none =>
    let u : Visit := ⟨ctx.inClass .root, some (.classDecl name none methods),
      (state.declareAndDefine name).openWith "this", .receiver :: frames, .functions methods⟩
    have known : T.setting.Known u := T.setting.parts _ u here.known List.mem_cons_self
    rw [← state.declareAndDefine_scopes] at chain₁
    refine .bind_ok rfl (.refl _ _) (.bind_currentScope (.bind (methodTable known rfl rfl rfl stands₁
      chain₁ fun x id found => by cases found) ?_))
    exact fun w' table m' steps stands table' => declareClass here₁ bound steps stands table'
  | some superclass =>
    have wf : name.Plain ∧ Superclass (some superclass) ∧ WellFormedFunctions methods :=
      here.ok.wellFormed
    let declaration := Stmt.classDecl name (some superclass) methods
    let ctx' := ctx.inClass .derived
    let inherits := state.inheriting name superclass
    let u : Visit := ⟨ctx', owner, inherits, frames, .expr superclass⟩
    let u' : Visit := ⟨ctx', some declaration,
      ((superclass.resolve ctx' inherits).openWith "super").openWith "this",
      .receiver :: .parent declaration :: frames, .functions methods⟩
    have known : T.setting.Known u := T.setting.parts _ u here.known List.mem_cons_self
    have known' : T.setting.Known u' :=
      T.setting.parts _ u' here.known (List.mem_cons_of_mem _ List.mem_cons_self)
    have same := (superclass.resolve_walks ctx' inherits (wellFormed_of_superclass wf.2.1)).scopes
    rw [← state.inheriting_scopes name superclass] at chain₁
    refine .bind (evalSuperclass faithful accounts rfl ⟨stands₁, known, chain₁⟩) ?_
    rintro w₂ _ m₂ steps₂ stands₂ ⟨c, rfl, valid, made⟩
    -- The scope for `super` comes between the one of the declaration and those of the methods.
    have sound := stands₂.sound.addWord "super" (.classRef c) m₂.scope (.parent declaration) valid
      rfl fun h' bound => ⟨c, bound, made⟩
    have steps₃ := Steps.of_heap (m := m₂) (List.prefix_append w₂ [.parent declaration])
      (m₂.heap.grows_addScope ⟨Bindings.empty.insert "super" (.classRef c), some m₂.scope⟩)
    have chain₂ : Chain T.setting.globals T.pending w₂ m₂.heap m₂.scope
        (superclass.resolve ctx' inherits).scopes frames := by
      rw [same, steps₂.scope]
      exact chain₁.later (steps₂.later _)
    have chain₃ := chain₂.pushWord "super" (.classRef c) (.parent declaration) stands₂.sound.size
      fun x => (Bindings.contains_insert_empty "super" true x).mp
    refine .bind_ok rfl steps₃ (.bind (methodTable known' rfl rfl rfl (stands₂.of_heap sound) chain₃
      fun x id found => by cases found) ?_)
    exact fun w' table m' steps stands table' =>
      declareClass here₁ bound ((steps₂.trans steps₃).trans steps) stands table'

theorem execRule {s : Stmt} {v : Visit} (faithful : Faithful (T.during (.stmt s) m) ev)
    (accounts : Accounts T ev (.stmt s) m) (piece : v.piece = .stmt s)
    (here : Here T.setting T.pending w m v) :
    Keeps T (ev.execRule s) w m fun w' flow m' => flow.Suits T.setting T.pending w' m' v := by
  obtain ⟨ctx, owner, state, frames, _⟩ := v
  cases piece
  have stands := here.stands
  -- The statements with scopes of their own have lemmas of their own.
  cases s with
  | expression e =>
    refine .bind (faithful.eval rfl (here.part List.mem_cons_self rfl rfl)) ?_
    exact fun w' value m' steps stands' _ =>
      .pure stands' ((here.after steps stands').suits_normal rfl rfl)
  | print e =>
    refine .bind (faithful.eval rfl (here.part List.mem_cons_self rfl rfl)) ?_
    intro w' value m' steps stands' _
    refine .bind (.print (Q := fun _ _ _ => True) stands' fun _ _ _ => trivial) ?_
    exact fun w'' _ m'' steps' stands'' _ =>
      .pure stands'' ((here.after (steps.trans steps') stands'').suits_normal rfl rfl)
  | var name initializer => exact execVar faithful accounts here
  | block body => exact execBlock faithful here
  | conditional condition thenBranch elseBranch => exact execConditional faithful here
  | loop condition body => exact execLoop faithful ev.rounds here
  | breakLoop keyword => exact .pure stands here.ok.break_inLoop
  | returnFrom keyword value =>
    have inside := here.ok.return_inFunction
    cases value with
    | none => exact .of_ok rfl (.refl w m) stands ⟨trivial, inside⟩
    | some e =>
      have part := here.part List.mem_cons_self rfl (state.checkReturn_scopes ctx keyword true)
      exact .map (faithful.eval rfl part) fun w' v m' _ _ valid => ⟨valid, inside⟩
  | function f => exact execFunction here
  | classDecl name superclass methods => exact execClass faithful accounts here

theorem runTopLevel (faithful : Faithful T ev) {program : List Stmt}
    (here : Here T.setting T.pending w m ⟨.top, owner, state, frames, .stmts program⟩) :
    Keeps T (runTopLevel ev program) w m fun _ _ _ => True := by
  induction program generalizing state w m with
  | nil => exact .pure here.stands trivial
  | cons s rest ih =>
    have first : Here T.setting T.pending w m ⟨.top, owner, state, frames, .stmt s⟩ :=
      here.part List.mem_cons_self rfl rfl
    refine .bind (faithful.exec rfl first) fun w' flow m' _ stands suits => ?_
    cases flow with
    | normal =>
      have known := T.setting.parts _ ⟨.top, owner, s.resolve .top state, frames, .stmts rest⟩
        here.known (List.mem_cons_of_mem _ List.mem_cons_self)
      exact ih ⟨stands, known, suits⟩
    | returned value => exact absurd rfl suits.2
    | broke => exact absurd rfl suits

end Faithful

end Quill
