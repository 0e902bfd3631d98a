import Quill.Proofs.Grammar.Invariants
import Quill.Proofs.Grammar.Program
import Quill.Proofs.Grammar.Rounds
import Quill.Proofs.Session.Registers

set_option autoImplicit false

namespace Quill

inductive Attempt : RefId → List Piece → RefId → Prop where
  | program {lo hi : RefId} {tokens : List Token} {body : List Stmt} :
      parseProgram lo tokens = .ok (body, hi) → Attempt lo [.stmts body] hi
  | expression {lo hi : RefId} {tokens : List Token} {e : Expr} :
      parseExpression lo tokens = .ok (e, hi) → Attempt lo [.expr e] hi
  | noProgram {lo : RefId} {tokens : List Token} {errors : List Error} :
      parseProgram lo tokens = .error errors →
      Attempt lo [] (programRule.after (.start lo tokens)).nextId
  | noExpression {lo : RefId} {tokens : List Token} {errors : List Error} :
      parseExpression lo tokens = .error errors →
      Attempt lo [] (loneExpressionRule.after (.start lo tokens)).nextId

theorem Attempt.numbered {lo hi : RefId} {found : List Piece} (attempt : Attempt lo found hi) :
    Numbered lo hi (found.flatMap Piece.ids) := by
  cases attempt with
  | program parsed =>
    rw [List.flatMap_singleton]
    exact (parseProgram_derives parsed).2
  | expression parsed =>
    rw [List.flatMap_singleton]
    exact parseExpression_numbered parsed
  -- What was given out before the error is in no tree.
  | @noProgram tokens =>
    have le := Parser.Keeps.nextId_le (fun _ => programRule_keeps) (.start lo tokens)
    exact ⟨le, by simp, List.nodup_nil⟩
  | @noExpression tokens =>
    have le := Parser.Keeps.nextId_le (fun _ => loneExpressionRule_keeps) (.start lo tokens)
    exact ⟨le, by simp, List.nodup_nil⟩

def Piece.table (p : Piece) : Except (List Error) Distances :=
  (p.resolve .top .start).result

namespace Session

/-- A session with the trees read so far and those of them whose tables it was given. Trees are read
and tables given in any order, also more than once, and anything may run in between, but that no
function of the host changes the registers by itself. -/
inductive Past : Session → List Piece → List Piece → Prop where
  | start (sink : Sink) (clock : Clock) : Past (.start sink clock) [] []
  | read {s : Session} {trees given found : List Piece} {hi : RefId} : Past s trees given →
      Attempt s.nextId found hi → Past { s with nextId := hi } (found ++ trees) given
  | give {s : Session} {trees given : List Piece} {p : Piece} {table : Distances} :
      Past s trees given → p ∈ trees → p.table = .ok table →
      Past { s with machine.distances := s.machine.distances.merge table } trees (p :: given)
  | interpret {s : Session} {trees given : List Piece} (fuel : Nat) (body : List Stmt) :
      Past s trees given →
      Past { s with machine := machineOf (Quill.interpret fuel body s.machine) } trees given
  | execute {s : Session} {trees given : List Piece} (fuel : Nat) (statement : Stmt) :
      Past s trees given →
      Past { s with machine := machineOf (Quill.execute fuel statement s.machine) } trees given
  | evaluate {s : Session} {trees given : List Piece} (fuel : Nat) (e : Expr) :
      Past s trees given →
      Past { s with machine := machineOf (Quill.evaluate fuel e s.machine) } trees given
  | limit {s : Session} {trees given : List Piece} (depth : Nat) :
      Past s trees given → Past (s.withMaxDepth depth) trees given
  | extend {s s' : Session} {trees given : List Piece} {native : Native} :
      Past s trees given → native.Within Deed.Restoring → s.addNative native = .ok s' →
      Past s' trees given

structure Separate (s : Session) (trees given : List Piece) : Prop where
  hosts : s.machine.heap.Hosts Deed.Restoring
  numbered : Numbered 0 s.nextId (trees.flatMap Piece.ids)
  among : given ⊆ trees
  stands : ∀ p ∈ given, ∀ table, p.table = .ok table →
    ∀ id ∈ p.ids, s.machine.distances[id]? = table[id]?
  nothing : ∀ id, (∀ p ∈ given, id ∉ p.ids) → s.machine.distances[id]? = none

namespace Separate

variable {s : Session} {trees given : List Piece}

theorem owner (separate : s.Separate trees given) {p q : Piece} (first : p ∈ trees)
    (second : q ∈ trees) {id : RefId} (inFirst : id ∈ p.ids) (inSecond : id ∈ q.ids) : p = q := by
  by_contra other
  obtain ⟨-, apart⟩ := List.nodup_flatMap.mp separate.numbered.nodup
  have symmetric : Std.Symm (Function.onFun List.Disjoint Piece.ids) :=
    ⟨fun _ _ disjoint => disjoint.symm⟩
  exact apart.forall first second other inFirst inSecond

theorem nothing_of_not_given (separate : s.Separate trees given) {p : Piece} (read : p ∈ trees)
    (notGiven : p ∉ given) {id : RefId} (mem : id ∈ p.ids) : s.machine.distances[id]? = none := by
  refine separate.nothing id fun q isGiven hit => notGiven ?_
  rwa [separate.owner read (separate.among isGiven) mem hit]

theorem read (separate : s.Separate trees given) {found : List Piece} {hi : RefId}
    (attempt : Attempt s.nextId found hi) :
    Separate { s with nextId := hi } (found ++ trees) given := by
  refine ⟨separate.hosts, ?_, fun p mem => List.mem_append_right _ (separate.among mem),
    separate.stands, separate.nothing⟩
  have all := separate.numbered.append attempt.numbered
  rw [List.flatMap_append]
  exact all.perm List.perm_append_comm

theorem give (separate : s.Separate trees given) {p : Piece} {table : Distances}
    (read : p ∈ trees) (resolved : p.table = .ok table) :
    Separate { s with machine.distances := s.machine.distances.merge table } trees (p :: given) := by
  refine ⟨separate.hosts, separate.numbered, List.cons_subset.mpr ⟨read, separate.among⟩, ?_, ?_⟩
  · intro q mem table' resolved' id hit
    change (s.machine.distances.merge table)[id]? = _
    rw [Distances.getElem?_merge]
    by_cases own : id ∈ p.ids
    · -- The entries of the tree itself are those of its table, whether it was given before or not.
      obtain rfl : p = q := by
        rcases List.mem_cons.mp mem with same | old
        · exact same.symm
        · exact separate.owner read (separate.among old) own hit
      obtain rfl : table = table' := Except.ok.inj (resolved.symm.trans resolved')
      by_cases old : p ∈ given
      · rw [separate.stands p old table resolved id own, Option.or_self]
      · rw [separate.nothing_of_not_given read old own, Option.or_none]
    · have old : q ∈ given := (List.mem_cons.mp mem).resolve_left fun same => own (same ▸ hit)
      rw [p.distances_outside resolved own, Option.none_or]
      exact separate.stands q old table' resolved' id hit
  · intro id outside
    obtain ⟨own, others⟩ := List.forall_mem_cons.mp outside
    change (s.machine.distances.merge table)[id]? = none
    rw [Distances.getElem?_merge, p.distances_outside resolved own, separate.nothing id others]
    rfl

theorem of_same (separate : s.Separate trees given) {s' : Session}
    (hosts : s'.machine.heap.Hosts Deed.Restoring)
    (table : s'.machine.distances = s.machine.distances) (counter : s'.nextId = s.nextId) :
    s'.Separate trees given := by
  obtain ⟨-, numbered, among, stands, nothing⟩ := separate
  rw [← counter] at numbered
  rw [← table] at stands nothing
  exact ⟨hosts, numbered, among, stands, nothing⟩

theorem run {α : Type} (separate : s.Separate trees given) {action : Run α}
    (leaves : Run.Leaves Deed.Restoring Machine.registers action) :
    Separate { s with machine := machineOf (action s.machine) } trees given := by
  obtain ⟨back, hosts⟩ := leaves s.machine separate.hosts
  exact separate.of_same hosts (Registers.mk.inj back).2.2.1 rfl

end Separate

theorem Past.separate {s : Session} {trees given : List Piece} (past : s.Past trees given) :
    s.Separate trees given := by
  induction past with
  | start sink clock =>
    exact ⟨(Heap.discreet_of_clock rfl).hosts _, .nil 0, List.Subset.refl _,
      fun p mem => (List.not_mem_nil mem).elim, fun _ _ => rfl⟩
  | read _ attempt ih => exact ih.read attempt
  | give _ mem resolved ih => exact ih.give mem resolved
  | interpret fuel body _ ih => exact ih.run (Machine.lasting_registers.interpret _ fuel body)
  | execute fuel statement _ ih =>
    exact ih.run (Machine.lasting_registers.withFuel _ fuel (t := .stmt statement) trivial)
  | evaluate fuel e _ ih =>
    exact ih.run (Machine.lasting_registers.withFuel _ fuel (t := .expr e) trivial)
  | limit depth _ ih => exact ih.of_same ih.hosts rfl rfl
  | extend _ restoring added ih =>
    obtain ⟨heap, rfl, rfl⟩ := addNative_ok added
    exact ih.of_same (ih.hosts.addNative restoring) rfl rfl

theorem Past.run {s : Session} {trees given : List Piece} {source : List UInt8}
    {prepared : Prepared (List Stmt)} (past : s.Past trees given) (fuel : Nat)
    (accepted : prepareProgram s.nextId source = .ok prepared) :
    (s.run fuel source).2.Past (.stmts prepared.tree :: trees) (.stmts prepared.tree :: given) := by
  obtain ⟨tokens, -, parsed, resolved⟩ := prepareProgram_stages accepted
  have read := past.read (.program parsed)
  have merged := read.give List.mem_cons_self resolved
  rw [run_prepared fuel accepted, perform_eq]
  exact merged.interpret fuel prepared.tree

theorem Past.eval {s : Session} {trees given : List Piece} {source : List UInt8}
    {prepared : Prepared Expr} (past : s.Past trees given) (fuel : Nat)
    (accepted : prepareExpression s.nextId source = .ok prepared) :
    (s.evaluate fuel source).2.Past (.expr prepared.tree :: trees) (.expr prepared.tree :: given) := by
  obtain ⟨tokens, -, parsed, resolved⟩ := prepareExpression_stages accepted
  have read := past.read (.expression parsed)
  have merged := read.give List.mem_cons_self resolved
  rw [evaluate_prepared fuel accepted, perform_eq]
  exact merged.evaluate fuel prepared.tree

end Session

/-- The tables of different trees never collide. Whatever was read before, also where reading failed,
no two references of all the trees read share an identity, and the table of each tree has entries for
its own references only. So whatever tables were given to the machine and whatever ran in between,
about the references of each of their trees the machine has on record just what resolution found
out about that tree, and about those of all other trees nothing. Running a source continues such a
past. -/
theorem tables_never_collide {s : Session} {trees given : List Piece} (past : s.Past trees given) :
    (trees.flatMap Piece.ids).Nodup ∧
    (∀ p ∈ trees, ∀ table, p.table = .ok table → ∀ id ∈ table, id ∈ p.ids) ∧
    (∀ p ∈ given, ∀ table, p.table = .ok table →
      ∀ id ∈ p.ids, s.machine.distances[id]? = table[id]?) ∧
    (∀ p ∈ trees, p ∉ given → ∀ id ∈ p.ids, s.machine.distances[id]? = none) ∧
    (∀ fuel source prepared, prepareProgram s.nextId source = .ok prepared →
      (s.run fuel source).2.Past (.stmts prepared.tree :: trees) (.stmts prepared.tree :: given)) ∧
    (∀ fuel source prepared, prepareExpression s.nextId source = .ok prepared →
      (s.evaluate fuel source).2.Past
        (.expr prepared.tree :: trees) (.expr prepared.tree :: given)) := by
  have separate := past.separate
  refine ⟨separate.numbered.nodup, fun p _ table resolved id => ?_, separate.stands,
    fun p read notGiven id => separate.nothing_of_not_given read notGiven, ?_, ?_⟩
  · exact p.mem_ids_of_recorded resolved
  · exact fun fuel source prepared => past.run fuel
  · exact fun fuel source prepared => past.eval fuel

def assigningBlock : List Token :=
  [symbolToken .leftBrace, symbolToken .varKw, nameToken "a", symbolToken .semicolon,
    nameToken "a", symbolToken .equal, nameToken "a", symbolToken .semicolon,
    symbolToken .rightBrace, ⟨.symbol .eof, "", 1⟩]

def assigningTree : List Stmt :=
  [.block [.var (nameToken "a") none,
    .expression (.assign 2 (nameToken "a") (.variable 1 (nameToken "a")))]]

def brokenOff : List Token :=
  [nameToken "a", symbolToken .plus, ⟨.symbol .eof, "", 1⟩]

def printingFunction : List Token :=
  [symbolToken .funKw, symbolToken .leftParen, nameToken "b", symbolToken .rightParen,
    symbolToken .leftBrace, symbolToken .printKw, nameToken "b", symbolToken .semicolon,
    symbolToken .rightBrace, ⟨.symbol .eof, "", 1⟩]

def printingTree : Expr :=
  .function ⟨none, [nameToken "b"], [.print (.variable 4 (nameToken "b"))]⟩

theorem tables_never_collide_assigning :
    ∃ s : Session,
      s.Past [.expr printingTree, .stmts assigningTree] [.expr printingTree, .stmts assigningTree] ∧
      s.machine.distances[1]? = some 0 ∧ s.machine.distances[2]? = some 0 ∧
      s.machine.distances[4]? = some 0 := by
  have first : parseProgram 0 assigningBlock = .ok (assigningTree, 3) := by cbv
  have failed : parseProgram 3 brokenOff =
      .error [.syntactic .expectedExpression ⟨.symbol .eof, "", 1⟩] := by cbv
  have counted : (programRule.after (.start 3 brokenOff)).nextId = 4 := by cbv
  have second : parseExpression 4 printingFunction = .ok (printingTree, 5) := by cbv
  have block : (Piece.stmts assigningTree).table =
    .ok ((Piece.stmts assigningTree).resolve .top .start).distances := by rfl
  have function : (Piece.expr printingTree).table =
    .ok ((Piece.expr printingTree).resolve .top .start).distances := by rfl
  have begun := (Session.Past.start .unlimited 0).read (.program first)
  have broken := begun.read (.noProgram failed)
  rw [counted] at broken
  have all := broken.read (.expression second)
  have ran := (all.give (by simp) block).interpret 10 assigningTree
  have past := ran.give (by simp) function
  obtain ⟨-, -, stands, -⟩ := tables_never_collide past
  refine ⟨_, past, ?_, ?_, ?_⟩
  · rw [stands _ (by simp) _ block 1 (by decide)]
    cbv
  · rw [stands _ (by simp) _ block 2 (by decide)]
    cbv
  · rw [stands _ (by simp) _ function 4 (by decide)]
    cbv

end Quill
