import Quill.Proofs.Evaluator.Steps
import Quill.Proofs.Grammar.InFront
import Quill.Proofs.Grammar.Program
import Quill.Proofs.Session.Splitting
import Quill.Proofs.Token.Joining

set_option autoImplicit false

namespace Quill

open Quill.Parser in
theorem programRule_print {ts : List Token} {keyword semicolon last : Token} {lo hi : RefId}
    {e : Expr} (hk : keyword.is .printKw) (hs : semicolon.is .semicolon)
    (value : (Grammar.upTo (ts.length + 2)).expression ⟨ts ++ [semicolon], last, [], lo⟩ =
      .ok e ⟨[semicolon], last, [], hi⟩) :
    programRule ⟨keyword :: (ts ++ [semicolon]), last, [], lo⟩ =
      .ok [.print e] ⟨[], last, [], hi⟩ := by
  have length : (keyword :: (ts ++ [semicolon])).length = ts.length + 2 := by simp
  have declared : (Grammar.upTo (ts.length + 2)).declaration
      ⟨keyword :: (ts ++ [semicolon]), last, [], lo⟩ =
        .ok (some (.print e)) ⟨[], last, [], hi⟩ :=
    Grammar.declarationRule_print hk hs value
  have rule (c : Cursor) : programRule c = Grammar.declarationsUntil atEnd
      (Grammar.upTo c.ahead.length).declaration c.ahead.length [] c := rfl
  rw [rule, length]
  exact bind_ok declared _

theorem parseProgram_print {ts : List Token} {keyword semicolon last last' : Token} {lo hi : RefId}
    {e : Expr} (hk : keyword.is .printKw) (hs : semicolon.is .semicolon) (hlast : last.is .eof)
    (hlast' : last'.is .eof) (hts : ∀ t ∈ ts, ¬t.is .eof)
    (parsed : parseExpression lo (ts ++ [last]) = .ok (e, hi)) :
    parseProgram lo (keyword :: (ts ++ [semicolon, last'])) = .ok ([.print e], hi) := by
  have ahead : (Cursor.start lo (ts ++ [last])).ahead = ts := takeWhile_append_eof hlast hts
  obtain ⟨_, result⟩ := parseExpression_reads parsed (congrArg List.length ahead)
  -- What is read up to the end is read in front of the semicolon too.
  have echo : Grammar.Echo [semicolon] ts.length (.upTo ts.length) (.upTo (ts.length + 2)) :=
    Grammar.upTo_echo ⟨semicolon, [], rfl, hs⟩ (by omega)
  have read := echo.expression (Cursor.start lo (ts ++ [last])) (by rw [ahead])
  unfold ReadsFrom at read
  rw [result] at read
  obtain ⟨-, us, all, value⟩ := read.2 rfl
  rw [ahead, List.append_nil] at all
  subst all
  have others : ∀ t ∈ keyword :: (ts ++ [semicolon]), ¬t.is .eof := by
    have apart {t : Token} {s : Symbol} (ht : t.is s) (other : s ≠ .eof) : ¬t.is .eof :=
      fun eof => other (Token.is_unique ht eof)
    simp only [List.mem_cons, List.mem_append, List.not_mem_nil, or_false]
    rintro t (rfl | mem | rfl)
    · exact apart hk (by decide)
    · exact hts t mem
    · exact apart hs (by decide)
  have start : ∃ end?, Cursor.start lo (keyword :: (ts ++ [semicolon, last'])) =
      ⟨keyword :: (ts ++ [semicolon]), end?, [], lo⟩ := by
    have whole := takeWhile_append_eof hlast' others
    rw [List.cons_append, List.append_assoc] at whole
    exact ⟨_, by rw [Cursor.start, ← whole]; rfl⟩
  obtain ⟨end?, start⟩ := start
  have run : programRule ⟨keyword :: (ts ++ [semicolon]), end?, [], lo⟩ =
      .ok [.print e] ⟨[], end?, [], hi⟩ := programRule_print hk hs (value end?)
  unfold parseProgram parseWith
  rw [start, run]
  rfl

theorem runTopLevel_print (fuel : Nat) (e : Expr) :
    runTopLevel (.withFuel (fuel + 1)) [.print e] = evaluate fuel e >>= Run.print := by
  change ((evaluate fuel e >>= fun v => Run.print v >>= fun _ => pure Flow.normal) >>= _) = _
  rw [bind_assoc]
  refine congrArg (evaluate fuel e >>= ·) (funext fun v => ?_)
  rw [bind_assoc]
  exact bind_pure_unit

theorem prepareExpression_eq {lo hi : RefId} {source : List UInt8} {tokens : List Token} {e : Expr}
    (scanned : scanTokens source = .ok tokens) (parsed : parseExpression lo tokens = .ok (e, hi)) :
    prepareExpression lo source = (resolveExpression e).map (⟨e, ·, hi⟩) := by
  unfold prepareExpression
  rw [scanned]
  change (parseExpression lo tokens >>= _) = _
  rw [parsed]
  change (resolveExpression e >>= _) = _
  cases resolveExpression e <;> rfl

theorem prepareProgram_eq {lo hi : RefId} {source : List UInt8} {tokens : List Token}
    {program : List Stmt} (scanned : scanTokens source = .ok tokens)
    (parsed : parseProgram lo tokens = .ok (program, hi)) :
    prepareProgram lo source = (resolveProgram program).map (⟨program, ·, hi⟩) := by
  unfold prepareProgram
  rw [scanned]
  change (parseProgram lo tokens >>= _) = _
  rw [parsed]
  change (resolveProgram program >>= _) = _
  cases resolveProgram program <;> rfl

namespace Session

def HasRoom : Outcome Value × Session → Prop
  | (.done v, s) =>
    let line := (s.machine.heap.display v ++ "\n").toUTF8
    s.machine.sink.accepts line.size = line.size
  | _ => True

def printed : Outcome Value × Session → Outcome Unit × Session
  | (.done v, s) =>
    let line := (s.machine.heap.display v ++ "\n").toUTF8
    (.done (), { s with machine.sink.written := s.machine.sink.written ++ line })
  | (.failed errors, s) => (.failed errors, s)
  | (.unfinished, s) => (.unfinished, s)

theorem perform_print {s : Session} {e : Expr} {table : Distances} {hi : RefId} {fuel : Nat}
    (flushes : s.machine.sink.flushFails = false)
    (room : HasRoom (s.perform ⟨e, table, hi⟩ (Quill.evaluate fuel))) :
    s.perform ⟨[.print e], table, hi⟩ (interpret (fuel + 1)) =
      printed (s.perform ⟨e, table, hi⟩ (Quill.evaluate fuel)) := by
  have sameTable : s.tableFor ⟨[Stmt.print e], table, hi⟩ = s.tableFor ⟨e, table, hi⟩ := rfl
  rw [perform_eq] at room ⊢
  rw [perform_eq, sameTable]
  dsimp only at room ⊢
  generalize s.tableFor ⟨e, table, hi⟩ = whole at room ⊢
  -- A flush that works leaves no trace, so both start with the same evaluation.
  have runs : interpret (fuel + 1) [.print e] (s.machine.withTable whole) =
      EStateM.bind (Quill.evaluate fuel e) Run.print (s.machine.withTable whole) := by
    rw [interpret_of_flush (m := s.machine.withTable whole) flushes, runTopLevel_print]
    rfl
  rw [runs]
  unfold EStateM.bind
  cases result : Quill.evaluate fuel e (s.machine.withTable whole) with
  | ok v m =>
    rw [result] at room
    dsimp only
    rw [Run.print_of_fits (m := m) room]
    rfl
  | error halt m => cases halt <;> rfl

end Session

/-- A program that prints an expression agrees with evaluating the expression alone. It has the same
tree in it, even if a comment stands at the end, and resolution finds the same. If that is errors,
nothing happens in either case but that identities are given out. Otherwise the program ends as the
evaluation does, with the same errors if it does in errors, and leaves the same machine behind, except
that the value of the expression is printed after all that the evaluation prints. -/
theorem run_printingOf_evaluate (s : Session) (source : List UInt8) (tokens : List Token) (e : Expr)
    (hi : RefId) (scanned : scanTokens source = .ok tokens)
    (parsed : parseExpression s.nextId tokens = .ok (e, hi)) :
    (∃ tokens', scanTokens (printingOf source) = .ok tokens' ∧
      parseProgram s.nextId tokens' = .ok ([.print e], hi)) ∧
    resolveProgram [.print e] = resolveExpression e ∧
    (∀ errors, resolveExpression e = .error errors → ∀ fuel,
      s.evaluate fuel source = (.failed errors, { s with nextId := hi }) ∧
        s.run fuel (printingOf source) = (.failed errors, { s with nextId := hi })) ∧
    (∀ table, resolveExpression e = .ok table → s.machine.sink.flushFails = false →
      ∀ fuel, Session.HasRoom (s.evaluate fuel source) →
        s.run (fuel + 1) (printingOf source) = Session.printed (s.evaluate fuel source)) := by
  obtain ⟨ts, line, rfl, noEnd, scanned'⟩ := scanTokens_printingOf scanned
  have parsed' : parseProgram s.nextId (⟨.symbol .printKw, "print", 1⟩ ::
      (ts ++ [⟨.symbol .semicolon, ";", line + 1⟩, ⟨.symbol .eof, "", line + 1⟩])) =
        .ok ([.print e], hi) := parseProgram_print rfl rfl rfl rfl noEnd parsed
  have resolved : resolveProgram [.print e] = resolveExpression e := rfl
  have prepares := prepareExpression_eq scanned parsed
  have prepares' := prepareProgram_eq scanned' parsed'
  rw [resolved] at prepares'
  -- Both sources are prepared alike, so both are rejected or both are run.
  refine ⟨⟨_, scanned', parsed'⟩, resolved, fun errors rejected fuel => ?_,
    fun table accepted flushes fuel room => ?_⟩
  · rw [rejected] at prepares prepares'
    have discarded := Session.discard_of_parsed scanned parsed
    have discarded' := Session.discard_of_parsed scanned' parsed'
    exact ⟨discarded ▸ Session.evaluate_rejected fuel prepares,
      discarded' ▸ Session.run_rejected fuel prepares'⟩
  · rw [accepted] at prepares prepares'
    rw [Session.evaluate_prepared fuel prepares] at room ⊢
    rw [Session.run_prepared (fuel + 1) prepares']
    exact Session.perform_print flushes room

def callCommented : List UInt8 :=
  "fun () \x7b print nil; \x7d () // end".toUTF8.data.toList

theorem run_printingOf_evaluate_commented :
    let s := Session.start .unlimited 0
    (s.run 5 (printingOf callCommented)).1 = .done () ∧
      (s.run 5 (printingOf callCommented)).2.machine.sink.written = "nil\nnil\n".toUTF8 := by
  have read : ∃ tokens, scanTokens callCommented = .ok tokens ∧ parseExpression 0 tokens = .ok
      (.call (.function ⟨none, [], [.print (.literal .nil)]⟩) (symbolToken .rightParen) [], 0) :=
    ⟨[.funKw, .leftParen, .rightParen, .leftBrace, .printKw, .nilKw, .semicolon, .rightBrace,
      .leftParen, .rightParen].map symbolToken ++ [⟨.symbol .eof, "", 1⟩], by cbv, by cbv⟩
  obtain ⟨tokens, scanned, parsed⟩ := read
  have room : Session.HasRoom ((Session.start .unlimited 0).evaluate 4 callCommented) := by cbv
  obtain ⟨-, -, -, agrees⟩ :=
    run_printingOf_evaluate (Session.start .unlimited 0) _ _ _ _ scanned parsed
  dsimp only
  rw [agrees {} rfl rfl 4 room]
  exact ⟨by cbv, by cbv⟩

end Quill
