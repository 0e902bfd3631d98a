import Quill.Proofs.Grammar.Program

set_option autoImplicit false

namespace Quill

theorem Derives.append {ts us : List Token} {p q : List Stmt} :
    Derives .declarations ts p → Derives .declarations us q →
      Derives .declarations (ts ++ us) (p ++ q)
  | .noDeclarations, second => second
  | .moreDeclarations first rest, second => by
    rw [List.append_assoc]
    exact .moreDeclarations first (rest.append second)

theorem Derives.concatenated {pieces : List (List Token × List Stmt)}
    (each : ∀ piece ∈ pieces, Derives .declarations piece.1 piece.2) :
    Derives .declarations (pieces.flatMap Prod.fst) (pieces.flatMap Prod.snd) := by
  induction pieces with
  | nil => exact .noDeclarations
  | cons piece pieces ih =>
    obtain ⟨first, rest⟩ := List.forall_mem_cons.mp each
    exact first.append (ih rest)

/-- With an end of input behind them, the tokens are read as a program. -/
def ReadAlone (ts : List Token) (program : List Stmt) : Prop :=
  (∀ t ∈ ts, ¬t.is .eof) ∧
    ∃ lo hi last, last.is .eof ∧ parseProgram lo (ts ++ [last]) = .ok (program, hi)

theorem ReadAlone.derives {ts : List Token} {program : List Stmt} (read : ReadAlone ts program) :
    Derives .declarations ts program := by
  obtain ⟨inner, lo, hi, last, ends, parsed⟩ := read
  have derivation := (parseProgram_derives parsed).1
  rw [takeWhile_append_eof ends inner] at derivation
  exact derivation

/-- Token lists that are read as programs are read, one after the other, as the program of all their
statements, up to the identities of references. -/
theorem parseProgram_concatenated (lo : RefId) {last : Token} (ends : last.is .eof) :
    (∀ a b p q, ReadAlone a p → ReadAlone b q →
      ∃ program hi, parseProgram lo (a ++ b ++ [last]) = .ok (program, hi) ∧
        unnumberedStmts program = unnumberedStmts (p ++ q)) ∧
    ∀ pieces : List (List Token × List Stmt), (∀ piece ∈ pieces, ReadAlone piece.1 piece.2) →
      ∃ program hi, parseProgram lo (pieces.flatMap Prod.fst ++ [last]) = .ok (program, hi) ∧
        unnumberedStmts program = unnumberedStmts (pieces.flatMap Prod.snd) := by
  have all (pieces : List (List Token × List Stmt))
      (each : ∀ piece ∈ pieces, ReadAlone piece.1 piece.2) :
      ∃ program hi, parseProgram lo (pieces.flatMap Prod.fst ++ [last]) = .ok (program, hi) ∧
        unnumberedStmts program = unnumberedStmts (pieces.flatMap Prod.snd) := by
    have inner : ∀ t ∈ pieces.flatMap Prod.fst, ¬t.is .eof := by
      intro t mem
      obtain ⟨piece, mem', inside⟩ := List.mem_flatMap.mp mem
      exact (each piece mem').1 t inside
    have whole := Derives.concatenated fun piece mem => (each piece mem).derives
    exact parseProgram_of_derives ends inner whole lo
  refine ⟨fun a b p q first second => ?_, all⟩
  have both : ∀ piece ∈ [(a, p), (b, q)], ReadAlone piece.1 piece.2 := by
    simpa using ⟨first, second⟩
  simpa using all [(a, p), (b, q)] both

def declaresFunction : List Token :=
  [symbolToken .funKw, nameToken "f", symbolToken .leftParen, symbolToken .rightParen,
    symbolToken .leftBrace, symbolToken .rightBrace]

def namesInParens : List Token :=
  [symbolToken .leftParen, nameToken "a", symbolToken .rightParen, symbolToken .semicolon]

theorem parseProgram_concatenated_parens :
    ∃ program hi,
      parseProgram 7 (declaresFunction ++ namesInParens ++ [⟨.symbol .eof, "", 3⟩]) =
        .ok (program, hi) ∧
      unnumberedStmts program =
        [.function ⟨some (nameToken "f"), [], []⟩,
          .expression (.grouping (.variable 0 (nameToken "a")))] := by
  have first : ReadAlone declaresFunction [.function ⟨some (nameToken "f"), [], []⟩] :=
    ⟨by decide, 0, 0, ⟨.symbol .eof, "", 1⟩, rfl, by cbv⟩
  have second : ReadAlone namesInParens [.expression (.grouping (.variable 4 (nameToken "a")))] :=
    ⟨by decide, 4, 5, ⟨.symbol .eof, "", 1⟩, rfl, by cbv⟩
  exact (parseProgram_concatenated 7 (by rfl)).1 _ _ _ _ first second

end Quill
