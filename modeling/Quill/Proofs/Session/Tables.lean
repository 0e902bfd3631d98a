import Quill.Proofs.Evaluator.Lawful
import Quill.Proofs.Session.History

set_option autoImplicit false

namespace Quill

namespace Piece

theorem references_one {p q : Piece} (mem : q ∈ [p]) : q.references ⊆ p.references := by
  rw [List.mem_singleton.mp mem]
  exact List.Subset.refl _

theorem references_two {p p' q : Piece} (mem : q ∈ [p, p']) :
    q.references ⊆ p.references ++ p'.references := by
  rcases List.mem_cons.mp mem with rfl | mem
  · exact List.subset_append_left _ _
  · exact List.Subset.trans (references_one mem) (List.subset_append_right _ _)

theorem references_expr {e : Expr} {q : Piece} (mem : q ∈ e.parts) :
    q.references ⊆ e.references := by
  cases e with
  | literal | «variable» | this | super | function => cases mem
  | grouping | unary | get => exact references_one mem
  | assign => exact List.Subset.trans (references_one mem) (List.subset_cons_self _ _)
  | binary | logical | call | set => exact references_two mem

theorem references_stmt {s : Stmt} {q : Piece} (mem : q ∈ s.parts) :
    q.references ⊆ s.references := by
  cases s with
  | breakLoop | function => cases mem
  | expression | print | block => exact references_one mem
  | loop => exact references_two mem
  | var _ value | returnFrom _ value =>
    cases value with
    | none => cases mem
    | some e => exact references_one mem
  | classDecl _ superclass =>
    cases superclass with
    | none => exact references_one mem
    | some e => exact references_two mem
  | conditional _ _ elseBranch =>
    cases elseBranch with
    | none => exact references_two mem
    | some s =>
      rcases List.mem_cons.mp mem with rfl | mem
      · exact List.Subset.trans (List.subset_append_left _ _) (List.subset_append_left _ _)
      · refine List.Subset.trans (references_two mem) ?_
        rw [Stmt.references, List.append_assoc]
        exact List.subset_append_right _ _

theorem references_part {p q : Piece} (mem : q ∈ p.parts) : q.references ⊆ p.references := by
  cases p with
  | expr e => exact references_expr mem
  | stmt s => exact references_stmt mem
  | function f => cases mem
  | exprs es =>
    cases es with
    | nil => cases mem
    | cons => exact references_two mem
  | stmts body =>
    cases body with
    | nil => cases mem
    | cons => exact references_two mem
  | functions fs =>
    cases fs with
    | nil => cases mem
    | cons f rest => exact List.Subset.trans (references_one mem) (List.subset_append_right _ _)

end Piece

def Deed.Mentions (id : RefId) : Deed → Prop
  | .done _ => False
  | .change _ next => ∃ view, (next view).Mentions id
  | .add _ _ respond next =>
    (∃ arguments line, (respond arguments line).Mentions id) ∨ ∃ native, (next native).Mentions id
  | .call _ _ next => ∃ result, (next result).Mentions id
  | .execute s next => id ∈ (Piece.stmt s).ids ∨ ∃ result, (next result).Mentions id
  | .evaluate e next => id ∈ (Piece.expr e).ids ∨ ∃ result, (next result).Mentions id

def Deed.Among (Ref : RefId → Prop) (deed : Deed) : Prop :=
  deed.Blind ∧ ∀ id, deed.Mentions id → Ref id

def Region.among (Ref : RefId → Prop) : Region where
  Code p := ∀ id ∈ p.ids, Ref id
  Callee f _ := ∀ id ∈ f.ids, Ref id
  Host := Native.Within (Deed.Among Ref)
  Act := Deed.Among Ref
  parts code mem id hit := code id (List.map_subset _ (Piece.references_part mem) hit)
  anonymous code := code
  named code := code
  method code id hit := code id (List.map_subset _ (List.subset_append_left _ _) hit)
  body {f _} callee := by
    cases f
    exact callee
  acts within := within

theorem Deed.Among.stays {Ref : RefId → Prop} {deed : Deed} (among : deed.Among Ref) :
    deed.Stays (.among Ref) fun _ => True := by
  induction deed with
  | done result => exact fun _ _ => trivial
  | change f next ih =>
    obtain ⟨⟨-, -, code, blind⟩, mentions⟩ := among
    refine ⟨fun m here => ⟨fun id closure found => ?_, here.natives⟩,
      fun view => ih view ⟨blind view, fun id mem => mentions id ⟨view, mem⟩⟩⟩
    -- A function that it makes has the code of one that is there, which mentions nothing new.
    obtain ⟨old, mem, same⟩ := code m.view closure (Array.mem_of_getElem? found)
    obtain ⟨id', there⟩ := Array.mem_iff_getElem?.mp mem
    change ∀ id ∈ closure.code.ids, Ref id
    rw [same]
    exact here.closures id' old there
  | add name arity respond next _ ih =>
    obtain ⟨blind, mentions⟩ := among
    refine ⟨?_, fun id => ih id ⟨blind.2 id, fun x mem => mentions x (.inr ⟨id, mem⟩)⟩⟩
    rintro arguments line _ ⟨⟩
    exact ⟨blind.1 arguments line, fun x mem => mentions x (.inl ⟨arguments, line, mem⟩)⟩
  | call callee arguments next ih =>
    exact fun result _ =>
      ih result ⟨among.1 result, fun id mem => among.2 id ⟨result, mem⟩⟩
  | execute s next ih =>
    exact ⟨fun id mem => among.2 id (.inl mem), fun result _ =>
      ih result ⟨among.1 result, fun id mem => among.2 id (.inr ⟨result, mem⟩)⟩⟩
  | evaluate e next ih =>
    exact ⟨fun id mem => among.2 id (.inl mem), fun result _ =>
      ih result ⟨among.1 result, fun id mem => among.2 id (.inr ⟨result, mem⟩)⟩⟩

def Realm.among (Ref : RefId → Prop) : Realm where
  toRegion := .among Ref
  Ref := Ref
  Fault _ := True
  refs code mem := code _ mem
  dynamic _ := trivial
  host _ _ := trivial
  stays := Deed.Among.stays

theorem Realm.among_blind (Ref : RefId → Prop) : (Realm.among Ref).Blind :=
  fun _ among => among.1

def Native.Mentions (native : Native) (id : RefId) : Prop :=
  ∃ arguments line deed, native.respond arguments line = .act deed ∧ deed.Mentions id

/-- References in the code of functions on the heap, and in that which functions of the host may
run. -/
def Heap.Mentions (h : Heap) (id : RefId) : Prop :=
  (∃ (f : FunctionId) (closure : Closure), h.closures[f]? = some closure ∧ id ∈ closure.code.ids) ∨
    ∃ native ∈ h.natives, native.Mentions id

theorem Realm.among_holds {Ref : RefId → Prop} {h : Heap} :
    (Realm.among Ref).Holds h ↔ h.Hosts Deed.Blind ∧ ∀ id, h.Mentions id → Ref id := by
  constructor
  · intro holds
    refine ⟨fun native mem arguments line deed reply => ?_, fun id mentions => ?_⟩
    · exact (holds.hosts native mem arguments line deed reply).1
    · rcases mentions with ⟨f, closure, found, mem⟩ | ⟨native, mem, arguments, line, deed, reply, hit⟩
      · exact holds.closures f closure found id mem
      · exact (holds.hosts native mem arguments line deed reply).2 id hit
  · rintro ⟨blind, sub⟩
    refine ⟨fun f closure found id mem => sub id (.inl ⟨f, closure, found, mem⟩),
      fun i native found => ?_⟩
    have mem := Array.mem_of_getElem? found
    exact fun arguments line deed reply => ⟨blind native mem arguments line deed reply,
      fun id hit => sub id (.inr ⟨native, mem, arguments, line, deed, reply, hit⟩)⟩

def outcomeOf {α : Type} : EStateM.Result Halt Machine α → Outcome α
  | .ok a _ => .done a
  | .error (.error e) _ => .failed [e]
  | .error .outOfFuel _ => .unfinished

theorem outcomeOf_withTable {α : Type} (table : Distances) (r : EStateM.Result Halt Machine α) :
    outcomeOf (withTable table r) = outcomeOf r := by
  cases r with
  | ok => rfl
  | error halt => cases halt <;> rfl

theorem machineOf_withTable {α : Type} (table : Distances) (r : EStateM.Result Halt Machine α) :
    machineOf (withTable table r) = (machineOf r).withTable table := by
  cases r <;> rfl

namespace Session

variable {α β : Type} {s s' : Session} {prepared : Prepared α} {action : α → Run β}

def tableFor (s : Session) (prepared : Prepared α) : Distances :=
  s.machine.distances.merge prepared.distances

theorem perform_eq (s : Session) (prepared : Prepared α) (action : α → Run β) :
    s.perform prepared action =
      (outcomeOf (action prepared.tree (s.machine.withTable (s.tableFor prepared))),
        ⟨machineOf (action prepared.tree (s.machine.withTable (s.tableFor prepared))),
          prepared.nextId⟩) := by
  have start : { s.machine with distances := s.machine.distances.merge prepared.distances } =
      s.machine.withTable (s.tableFor prepared) := rfl
  unfold perform
  simp only [start]
  cases action prepared.tree (s.machine.withTable (s.tableFor prepared)) with
  | ok => rfl
  | error halt => cases halt <;> rfl

section Prepares

variable {source : List UInt8} {errors : List Error}

theorem run_prepared {prepared : Prepared (List Stmt)} (fuel : Nat)
    (accepted : prepareProgram s.nextId source = .ok prepared) :
    s.run fuel source = s.perform prepared (interpret fuel) := by
  unfold run
  rw [accepted]

theorem evaluate_rejected (fuel : Nat)
    (rejected : prepareExpression s.nextId source = .error errors) :
    s.evaluate fuel source = (.failed errors, s.discard loneExpressionRule source) := by
  unfold evaluate
  rw [rejected]

theorem evaluate_prepared {prepared : Prepared Expr} (fuel : Nat)
    (accepted : prepareExpression s.nextId source = .ok prepared) :
    s.evaluate fuel source = s.perform prepared (Quill.evaluate fuel) := by
  unfold evaluate
  rw [accepted]

end Prepares

structure SameButTable (s s' : Session) : Prop where
  machine : s'.machine = s.machine.withTable s'.machine.distances
  nextId : s'.nextId = s.nextId

section Lawful

variable {R : Realm} (lawful : Run.Lawful R (action prepared.tree) (action prepared.tree))
  (here : R.Holds s.machine.heap)

include lawful here

theorem perform_distances (blind : R.Blind) :
    (s.perform prepared action).2.machine.distances = s.tableFor prepared := by
  rw [perform_eq]
  exact (lawful.returns (s.machine.withTable (s.tableFor prepared)) here).distances blind

theorem perform_holds : R.Holds (s.perform prepared action).2.machine.heap := by
  rw [perform_eq]
  exact lawful.holds (s.machine.withTable (s.tableFor prepared)) here

theorem SameButTable.perform (blind : R.Blind) (same : SameButTable s s')
    (agree : R.Agree (s.tableFor prepared) (s'.tableFor prepared)) :
    (s'.perform prepared action).1 = (s.perform prepared action).1 ∧
      SameButTable (s.perform prepared action).2 (s'.perform prepared action).2 := by
  have start : s'.machine.withTable (s'.tableFor prepared) =
      (s.machine.withTable (s.tableFor prepared)).withTable (s'.tableFor prepared) := by
    rw [same.machine]
    rfl
  have result := lawful.same blind (s.machine.withTable (s.tableFor prepared)) _ here agree
  rw [perform_eq, perform_eq, start, result, outcomeOf_withTable, machineOf_withTable]
  exact ⟨rfl, rfl, rfl⟩

end Lawful

end Session

end Quill
