import Quill.Proofs.Resolution.LoopHeads

set_option autoImplicit false

namespace Quill

/-- The tokens behind the keyword of a loop are its clauses and its body. -/
inductive ForLoop.ReadFrom : List Token → ForLoop → Prop where
  | clauses {opening middle closing : Token} {us vs ws xs : List Token} {initializer : Option Stmt}
      {condition increment : Option Expr} {body : Stmt} {dangling : Bool} :
      opening.is .leftParen → Derives .forStart us initializer → Derives .optional vs condition →
      middle.is .semicolon → Derives .optional ws increment → closing.is .rightParen →
      Derives (.statement dangling) xs body →
      ReadFrom (opening :: (us ++ (vs ++ middle :: (ws ++ closing :: xs))))
        ⟨initializer, condition, increment, body⟩

theorem ForLoop.ReadFrom.hygienic {ts : List Token} {l : ForLoop} (read : l.ReadFrom ts) :
    l.Hygienic := by
  obtain ⟨-, -, -, -, -, -, body⟩ := read
  obtain ⟨silent, shaped⟩ := body.shaped
  exact ForLoop.hygienic (Stmt.declarations_of_shaped _ (shaped []) silent)

theorem Derives.for_clauses {keyword : Token} {ts : List Token} {dangling : Bool} {s : Stmt}
    (hk : keyword.is .forKw) (derives : Derives (.statement dangling) (keyword :: ts) s) :
    ∃ l : ForLoop, l.ReadFrom ts ∧ s = l.desugared := by
  generalize same : keyword :: ts = us at derives
  cases derives with
  | forStmt _ opens start condition middle increment closes body =>
    obtain ⟨-, rfl⟩ := List.cons.inj same
    refine ⟨_, .clauses opens start condition middle increment closes body, ?_⟩
    exact (Grammar.desugarFor_eq _ _ _ _).symm
  | exprStmt derives =>
    subst same
    obtain ⟨⟨t, us, same, first⟩, -⟩ := derives.begun
    obtain ⟨rfl, -⟩ := List.cons.inj same
    exact absurd (first _ hk) (by decide)
  | blockStmt derives =>
    cases derives with
    | block opens =>
      obtain ⟨rfl, -⟩ := List.cons.inj same
      cases Token.is_unique hk opens
  | printStmt other | breakStmt other | returnStmt other | whileStmt other | ifStmt other
  | ifElseStmt other =>
    obtain ⟨rfl, -⟩ := List.cons.inj same
    cases Token.is_unique hk other

theorem forStatement_clauses {n : Nat} {c c' : Cursor} {s : Stmt} (enough : c.ahead.length ≤ n)
    (result : Grammar.forStatement (.upTo n) c = .ok s c') (clean : c'.reported = []) :
    ∃ ts, ∃ l : ForLoop, c.ahead = ts ++ c'.ahead ∧ l.ReadFrom ts ∧ s = l.desugared ∧
      (s.references.map (·.id)).Nodup := by
  have keyword : (symbolToken .forKw).is .forKw := by decide
  have read := Grammar.forStatement_reads (Grammar.upTo_sound n) _ keyword c enough
  unfold ReadsFrom at read
  rw [result] at read
  obtain ⟨-, ts, ahead, dangling, ⟨derives, numbered⟩, -⟩ := read.2 clean
  obtain ⟨l, clauses, same⟩ := derives.for_clauses keyword
  exact ⟨ts, l, ahead, clauses, same, numbered.nodup⟩

/-- Whatever loop is accepted, its statement is built from its clauses. Such a statement finishes
with what the loop itself finishes with, in every state, and leaves the clauses their names. -/
theorem for_desugared :
    (∀ (n : Nat) (c c' : Cursor) (s : Stmt), c.ahead.length ≤ n →
      Grammar.forStatement (.upTo n) c = .ok s c' → c'.reported = [] →
      ∃ ts, ∃ l : ForLoop, c.ahead = ts ++ c'.ahead ∧ l.ReadFrom ts ∧ s = l.desugared ∧
        (s.references.map (·.id)).Nodup) ∧
    (∀ (l : ForLoop) (m : Machine) (result : EStateM.Result Halt Machine Flow), Finished result →
      ((∃ fuel, execute fuel l.desugared m = result) ↔
        ∃ fuel, (Evaluator.withFuel fuel).execFor l m = result)) ∧
    ∀ (ts : List Token) (l : ForLoop), l.ReadFrom ts → l.Hygienic :=
  ⟨fun _ _ _ _ => forStatement_clauses, Evaluator.execFor_iff, fun _ _ => ForLoop.ReadFrom.hygienic⟩

def flagged : List Token :=
  [symbolToken .leftParen, symbolToken .varKw, nameToken "b", symbolToken .equal,
    symbolToken .trueKw, symbolToken .semicolon, nameToken "b", symbolToken .semicolon,
    nameToken "b", symbolToken .equal, symbolToken .falseKw, symbolToken .rightParen,
    symbolToken .printKw, nameToken "b", symbolToken .semicolon, ⟨.symbol .eof, "", 1⟩]

def flaggedLoop : Stmt :=
  .block [.var (nameToken "b") (some (.literal (.boolean true))),
    .loop (.variable 0 (nameToken "b")) (.block [.print (.variable 3 (nameToken "b")),
      .expression (.assign 2 (nameToken "b") (.literal (.boolean false)))])]

def flaggedStart : Machine :=
  { Machine.start .unlimited 0 with distances := (({} : Distances).insert 0 0).insert 3 1 |>.insert 2 1 }

theorem for_desugared_flagged :
    ∃ c', ∃ l : ForLoop,
      Grammar.forStatement (.upTo 15) (Cursor.start 0 flagged) = .ok flaggedLoop c' ∧
        flaggedLoop = l.desugared ∧ l.Hygienic ∧
          resolveProgram [flaggedLoop] = .ok flaggedStart.distances ∧
            ∃ fuel m', (Evaluator.withFuel fuel).execFor l flaggedStart = .ok .normal m' ∧
              m'.sink.written = "true\n".toUTF8 := by
  obtain ⟨reads, runs, clean⟩ := for_desugared
  obtain ⟨c', parsed, nothing⟩ : ∃ c', Grammar.forStatement (.upTo 15) (Cursor.start 0 flagged) =
      .ok flaggedLoop c' ∧ c'.reported = [] := ⟨_, by cbv, rfl⟩
  obtain ⟨ts, l, -, read, same, -⟩ := reads 15 _ c' _ (by decide) parsed nothing
  have written : (machineOf (execute 6 flaggedLoop flaggedStart)).sink.written =
      "true\n".toUTF8 := by cbv
  obtain ⟨m', result⟩ : ∃ m', execute 6 flaggedLoop flaggedStart = .ok .normal m' := ⟨_, by cbv⟩
  rw [result] at written
  rw [same] at result
  obtain ⟨fuel, direct⟩ := (runs l flaggedStart _ (finished_ok _ _)).mp ⟨6, result⟩
  exact ⟨c', l, parsed, same, clean ts l read, by cbv, fuel, m', direct, written⟩

end Quill
