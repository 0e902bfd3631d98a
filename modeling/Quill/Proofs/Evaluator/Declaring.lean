import Quill.Proofs.Evaluator.Confined
import Quill.Proofs.Resolution.Rules

set_option autoImplicit false

namespace Quill

theorem Heap.Frames.binds_iff {s t : ScopeId} {h h' : Heap} (frames : h.Frames s [] h')
    (old : t < h.scopes.size) (x : String) : h'.Binds t x ↔ h.Binds t x := by
  refine ⟨fun binds => ?_, frames.keeps t x⟩
  exact (frames.adds t x old binds).resolve_right fun ⟨_, mem⟩ => by cases mem

theorem Run.define_cases (name : Token) (value : Value) (m : Machine) :
    (¬ m.heap.Binds m.scope name.lexeme ∧ define name value m =
        .ok () { m with heap := m.heap.write m.scope name.lexeme value }) ∨
      (m.heap.Binds m.scope name.lexeme ∧ define name value m =
        .error (.error (.runtime (.redefined name.lexeme) name.line)) m) := by
  unfold define Heap.definable Heap.Binds
  rw [Heap.slotIn?_eq]
  cases m.heap.value? m.scope name.lexeme with
  | none => exact .inl ⟨by simp, rfl⟩
  | some v => exact .inr ⟨⟨v, rfl⟩, rfl⟩

theorem Heap.slot_of_binds {h : Heap} {s : ScopeId} {name : String} (binds : h.Binds s name)
    (line : Nat) : ∃ slot, h.slot s name line = .ok slot := by
  obtain ⟨v, found⟩ := binds
  refine ⟨⟨s, v⟩, ?_⟩
  unfold Heap.slot
  rw [nearest?, slotIn?_of_value? found]

namespace Evaluator

variable {m : Machine} {name : Token}

theorem buildClass_ok (parent : Option ClassId) (methods : List Function)
    (bound : m.heap.Binds m.scope name.lexeme) :
    ∃ m', buildClass name parent methods m = .ok .normal m' := by
  have all (m : Machine) := Region.all_holds m.heap
  obtain ⟨scope, m₁, first⟩ : ∃ scope m₁, methodScope parent m = .ok scope m₁ := by
    cases parent <;> exact ⟨_, _, rfl⟩
  have opened := Run.Confined.methodScope (R := .all) parent m (all m)
  rw [first] at opened
  obtain ⟨table, m₂, second, -⟩ :=
    Run.Confined.methodTable_labels scope methods m₁.heap.labels_empty
  have silent : Run.Confined .all [] (methodTable scope methods {}) :=
    .methodTable scope trivial {}
  have collected := silent m₁ (all m₁)
  rw [second] at collected
  -- The name that was bound before is still bound when the class is assigned to it.
  have bound₂ : m₂.heap.Binds m₂.scope name.lexeme := by
    rw [show m₂.scope = m.scope from collected.scope.trans opened.scope]
    exact collected.frames.keeps _ _ (opened.frames.keeps _ _ bound)
  let m₃ : Machine := { m₂ with heap := m₂.heap.addClass ⟨name.lexeme, parent, table⟩ }
  have bound₃ : m₃.heap.Binds m₃.scope name.lexeme := bound₂
  obtain ⟨slot, found⟩ := Heap.slot_of_binds bound₃ name.line
  let c := Value.classRef m₂.heap.classes.size
  let m₄ : Machine := { m₃ with heap := m₃.heap.write slot.scope name.lexeme c }
  have assigned : Run.assignNearest name c m₃ = .ok () m₄ := by
    unfold Run.assignNearest
    rw [found]
  refine ⟨m₄, ?_⟩
  calc buildClass name parent methods m
    _ = (Run.assignNearest name c >>= fun _ => pure .normal) m₃ :=
      (Run.bind_of_ok first).trans (Run.bind_of_ok second)
    _ = .ok .normal m₄ := Run.bind_of_ok assigned

def initial (ev : Evaluator) : Stmt → Run Value
  | .var _ initializer => ev.evalOptional initializer
  | .function f => evalFunction f
  | _ => pure .nil

def complete (ev : Evaluator) : Stmt → Run Flow
  | .classDecl name superclass methods => do
    let parent ← ev.evalSuperclass name superclass
    buildClass name parent methods
  | _ => pure .normal

theorem execRule_declared (ev : Evaluator) {d : Stmt} (declared : d.declared? = some name) :
    ev.execRule d = ev.initial d >>= fun v => Run.define name v >>= fun _ => ev.complete d := by
  cases d with
  | var _ _ | classDecl _ _ _ =>
    cases declared
    rfl
  | function f =>
    have named : f.name = some name := declared
    change execFunction f = _
    unfold execFunction
    rw [named]
    rfl
  | _ => cases declared

section Stages

variable {R : Region} {ev : Evaluator} (confined : ev.Confined R) {d : Stmt}
  (code : R.Code (.stmt d))

include confined code

theorem initial_confined : Run.Confined R [] (ev.initial d) := by
  cases d with
  | var _ initializer =>
    refine confined.evalOptional ?_
    rintro e rfl
    exact R.parts code List.mem_cons_self
  | function f => exact .evalFunction (R.named code)
  | _ => exact .pure _

theorem complete_confined : Run.Confined R [] (ev.complete d) := by
  cases d with
  | classDecl name superclass methods =>
    have above : ∀ e ∈ superclass, R.Code (.expr e) := by
      rintro e rfl
      exact R.parts code List.mem_cons_self
    have own : R.Code (.functions methods) := by
      cases superclass with
      | none => exact R.parts code List.mem_cons_self
      | some e => exact R.parts code (List.mem_cons_of_mem _ List.mem_cons_self)
    exact (confined.evalSuperclass name above).bind fun parent => .buildClass name parent own
  | _ => exact .pure _

end Stages

theorem machineOf_evalSuperclass (n : Nat) (name : Token) {superclass : Option Expr}
    (wf : Superclass superclass) (m : Machine) :
    machineOf ((withFuel n).evalSuperclass name superclass m) = m := by
  cases superclass with
  | none => rfl
  | some e =>
    cases e with
    | «variable» id superName =>
      cases n with
      | zero => rfl
      | succ n =>
        have read : (withFuel (n + 1)).eval (.variable id superName) m =
            Run.readRef id superName m := rfl
        change machineOf (EStateM.bind ((withFuel (n + 1)).eval (.variable id superName)) _ m) = m
        unfold EStateM.bind
        rw [read]
        unfold Run.readRef
        cases Run.slotOf m id superName with
        | error e => rfl
        | ok slot =>
          obtain ⟨_, v⟩ := slot
          cases v <;> rfl
    | _ => cases wf

theorem complete_fails {n : Nat} {d : Stmt} {m' : Machine} {e : Error} (wf : d.WellFormed)
    (declared : d.declared? = some name) (bound : m.heap.Binds m.scope name.lexeme)
    (failed : (withFuel n).complete d m = .error (.error e) m') : d.inherits = true ∧ m' = m := by
  cases d with
  | classDecl name' superclass methods =>
    cases declared
    have same := machineOf_evalSuperclass n name wf.2.1 m
    rcases Run.bind_cases failed with ⟨parent, m₁, first, builds⟩ | ⟨halt, m₁, first, halts⟩
    · rw [first] at same
      obtain ⟨m₂, built⟩ := buildClass_ok parent methods bound
      rw [show m₁ = m from same, built] at builds
      cases builds
    · rw [first] at same
      cases halts
      refine ⟨?_, same⟩
      cases superclass with
      | none => cases first
      | some e => rfl
  | _ => cases failed

theorem execRule_stages {ev : Evaluator} {d : Stmt} {result : EStateM.Result Halt Machine Flow}
    (declared : d.declared? = some name) (run : ev.execRule d m = result) :
    (∃ halt m₁, ev.initial d m = .error halt m₁ ∧ result = .error halt m₁) ∨
    ∃ v m₁, ev.initial d m = .ok v m₁ ∧
      ((m₁.heap.Binds m₁.scope name.lexeme ∧
          result = .error (.error (.runtime (.redefined name.lexeme) name.line)) m₁) ∨
        (¬ m₁.heap.Binds m₁.scope name.lexeme ∧ ev.complete d
          { m₁ with heap := m₁.heap.write m₁.scope name.lexeme v } = result)) := by
  rw [execRule_declared _ declared] at run
  rcases Run.bind_cases run with ⟨v, m₁, first, run⟩ | ⟨halt, m₁, first, halts⟩
  · refine .inr ⟨v, m₁, first, ?_⟩
    rcases Run.define_cases name v m₁ with ⟨free, defined⟩ | ⟨bound, refused⟩
    · rw [Run.bind_of_ok defined] at run
      exact .inr ⟨free, run⟩
    · exact .inl ⟨bound, run.symm.trans (Run.bind_of_error refused)⟩
  · exact .inl ⟨halt, m₁, first, halts⟩

section Outcomes

variable {R : Region} (confined : ∀ n, (withFuel n).Confined R) {n : Nat} {d : Stmt}
  (code : R.Code (.stmt d)) (here : R.Holds m.heap) {m' : Machine}

include confined code here

theorem initial_binds {v : Value} (exist : m.scope < m.heap.scopes.size)
    (first : (withFuel n).initial d m = .ok v m') (name : String) :
    m'.scope = m.scope ∧ (m'.heap.write m'.scope name v).Binds m'.scope name := by
  have early := initial_confined (confined n) code m here
  rw [first] at early
  have scope : m'.scope = m.scope := early.scope
  have exist' : m'.scope < m'.heap.scopes.size :=
    scope ▸ Nat.lt_of_lt_of_le exist early.frames.scopes
  exact ⟨scope, (Heap.binds_write_iff exist' ..).mpr (.inr ⟨rfl, rfl⟩)⟩

variable (declared : d.declared? = some name) (exist : m.scope < m.heap.scopes.size)

include declared exist

theorem exec_binds {flow : Flow} (done : (withFuel n).exec d m = .ok flow m') :
    m'.heap.Binds m.scope name.lexeme := by
  cases n with
  | zero => cases done
  | succ n =>
    rcases execRule_stages declared done with
      ⟨_, _, -, halts⟩ | ⟨v, m₁, first, ⟨-, halts⟩ | ⟨-, rest⟩⟩
    · cases halts
    · cases halts
    · obtain ⟨scope, bound⟩ := initial_binds confined code here exist first name.lexeme
      have early := (initial_confined (confined n) code m here).holds
      rw [first] at early
      let m₂ : Machine := { m₁ with heap := m₁.heap.write m₁.scope name.lexeme v }
      have late := complete_confined (confined n) code m₂ (early.congr ⟨rfl, rfl⟩)
      rw [rest] at late
      rw [← scope]
      exact late.frames.keeps _ _ bound

theorem exec_fails {e : Error} (wf : d.WellFormed)
    (failed : (withFuel n).exec d m = .error (.error e) m') :
    (∀ x, m'.heap.Binds m.scope x ↔
      m.heap.Binds m.scope x ∨ d.inherits = true ∧ x = name.lexeme) ∧
    (d.inherits = true → ¬ m.heap.Binds m.scope name.lexeme →
      m'.heap.value? m.scope name.lexeme = some .nil) := by
  cases n with
  | zero => cases failed
  | succ n =>
    have early := initial_confined (confined n) code m here
    -- A class has its name bound before anything of it is run.
    have atOnce (inherits : d.inherits = true) : (withFuel n).initial d m = .ok .nil m := by
      cases d with
      | classDecl => rfl
      | _ => cases inherits
    rcases execRule_stages declared failed with
      ⟨halt, m₁, first, halts⟩ | ⟨v, m₁, first, ⟨bound, halts⟩ | ⟨free, rest⟩⟩
    -- The value of a variable fails, as a class and a function have theirs without fail.
    · cases halts
      rw [first] at early
      have plain : d.inherits = false := by
        cases inherits : d.inherits with
        | false => rfl
        | true =>
          rw [atOnce inherits] at first
          cases first
      refine ⟨fun x => ?_, fun inherits => ?_⟩
      · rw [plain]
        exact (early.frames.binds_iff exist x).trans (by simp)
      · rw [plain] at inherits
        cases inherits
    -- The name is bound already, also before the value is evaluated, which binds nothing here.
    · cases halts
      rw [first] at early
      have same := early.frames.binds_iff exist
      have bound' : m.heap.Binds m.scope name.lexeme := by
        rw [← same, ← show m'.scope = m.scope from early.scope]
        exact bound
      refine ⟨fun x => ?_, fun _ free => absurd bound' free⟩
      refine (same x).trans ⟨.inl, fun binds => binds.elim id ?_⟩
      rintro ⟨-, rfl⟩
      exact bound'
    -- Only the superclass can fail now, while the class has its name bound to `nil`.
    · obtain ⟨-, bound⟩ := initial_binds confined code here exist first name.lexeme
      obtain ⟨inherits, rfl⟩ := complete_fails wf declared bound rest
      rw [atOnce inherits] at first
      cases first
      refine ⟨fun x => ?_, fun _ _ => ?_⟩
      · rw [Heap.binds_write_iff exist]
        simp [inherits]
      · exact (m.heap.value?_write ..).trans (if_pos ⟨rfl, rfl, exist⟩)

end Outcomes

theorem runTopLevel_comesTo {ev : Evaluator} (lawful : Evaluator.Lawful .whole ev ev)
    (confined : ev.Confined Realm.whole.toRegion) {program : List Stmt} {t : Task} {m₁ : Machine}
    (here : Realm.whole.Holds m.heap)
    (comes : ComesTo (fun ev => runTopLevel ev program) ev m t m₁) :
    ∃ s ∈ program, t = .stmt s ∧ Realm.whole.Holds m₁.heap ∧ m.Restored m₁ ∧
      m.heap.scopes.size ≤ m₁.heap.scopes.size ∧
      ∀ halt m', ev.exec s m₁ = .error halt m' → runTopLevel ev program m = .error halt m' := by
  induction program generalizing m with
  | nil => exact comes.not_const.elim
  | cons s program ih =>
    rcases ComesTo.bind_cases (.exec s) comes with now | ⟨flow, m₂, first, later⟩
    · obtain ⟨rfl, rfl⟩ := ComesTo.task_eq (u := .stmt s) now
      refine ⟨s, List.mem_cons_self, rfl, here, .refl m, Nat.le_refl _, fun halt m' fails => ?_⟩
      exact Run.bind_of_error fails
    · have back := (lawful.exec (s := s) trivial).restored Realm.whole_quiet m here
      obtain ⟨holds, -, frames, -⟩ := confined.exec (s := s) trivial m here
      rw [first] at back holds frames
      cases flow with
      | normal =>
        obtain ⟨s', mem, task, holds', back', le, fails⟩ := ih holds later
        refine ⟨s', List.mem_cons_of_mem _ mem, task, holds', back.trans back',
          Nat.le_trans frames.scopes le, fun halt m' failed => ?_⟩
        exact (Run.bind_of_ok first).trans (fails halt m' failed)
      | returned _ | broke => exact later.not_const.elim

end Evaluator

theorem Episode.ComesFirstTo.stmt {r : Episode} (discreet : r.machine.heap.Discreet) {a : Moment}
    (comes : r.ComesFirstTo a) :
    ∃ s ∈ r.program, a.task = .stmt s ∧ Realm.whole.Holds a.machine.heap ∧
      r.machine.Restored a.machine ∧
      r.machine.heap.scopes.size ≤ a.machine.heap.scopes.size ∧
      ∀ halt m', (Evaluator.withFuel a.fuel).exec s a.machine = .error halt m' →
        r.result = .error halt m' := by
  obtain ⟨fuel, comes⟩ := comes
  rw [fuel]
  exact Evaluator.runTopLevel_comesTo (Evaluator.lawful_withFuel .whole r.fuel)
    (Evaluator.confined_withFuel Realm.whole_quiet r.fuel) (Realm.whole_holds discreet) comes

end Quill
