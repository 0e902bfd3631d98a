import Mathlib
import Quill.Proofs.Grammar.Completeness

set_option autoImplicit false

namespace Quill

open Quill.Parser

/-- program → declaration* EOF -/
def DerivesProgram (tokens : List Token) (program : List Stmt) : Prop :=
  ∃ ts last, tokens = ts ++ [last] ∧ last.is .eof ∧ Derives .declarations ts program

/-- The last token, and no other, is the end of input. -/
def Terminated (tokens : List Token) : Prop :=
  ∃ ts last, tokens = ts ++ [last] ∧ last.is .eof ∧ ∀ t ∈ ts, ¬t.is .eof

theorem takeWhile_append_eof {ts : List Token} {last : Token} (hlast : last.is .eof)
    (hts : ∀ t ∈ ts, ¬t.is .eof) : ((ts ++ [last]).takeWhile fun t => !t.is .eof) = ts := by
  rw [List.takeWhile_append_of_pos (by simpa using hts)]
  simp [hlast]

theorem ends_input : Ends atEnd [] := by
  refine ⟨fun _ _ _ => rfl, fun ts last reported lo begins => ?_, clear_nil _⟩
  obtain ⟨t, us, rfl, -⟩ := begins
  rfl

theorem programRule_parses {ts : List Token} {program : List Stmt}
    (h : Derives .declarations ts program) :
    Parses programRule ts [] fun program' => unnumberedStmts program' = unnumberedStmts program := by
  intro last reported lo
  have run := h.completed ts.length ts.length [] atEnd [] (Nat.le_refl _) (Nat.le_refl _) ends_input
  obtain ⟨_, hi, run, program', rfl, same⟩ := run last reported lo
  refine ⟨_, hi, ?_, same⟩
  rw [List.append_nil] at run ⊢
  exact run

theorem parseProgram_of_derives {ts : List Token} {last : Token} {program : List Stmt}
    (hlast : last.is .eof) (hts : ∀ t ∈ ts, ¬t.is .eof) (h : Derives .declarations ts program)
    (lo : RefId) : ∃ program' hi, parseProgram lo (ts ++ [last]) = .ok (program', hi) ∧
      unnumberedStmts program' = unnumberedStmts program := by
  have start : ∃ end?, Cursor.start lo (ts ++ [last]) = ⟨ts ++ [], end?, [], lo⟩ :=
    ⟨_, by rw [Cursor.start, takeWhile_append_eof hlast hts, List.append_nil]⟩
  obtain ⟨end?, start⟩ := start
  obtain ⟨program', hi, run, same⟩ := programRule_parses h end? [] lo
  refine ⟨program', hi, ?_, same⟩
  unfold parseProgram parseWith
  rw [start, run]
  rfl

theorem parseProgram_error_ne_nil {lo : RefId} {tokens : List Token} {errors : List Error}
    (h : parseProgram lo tokens = .error errors) : errors ≠ [] := by
  unfold parseProgram parseWith at h
  split at h
  next c hx =>
    split at h
    next => cases h
    next reported =>
      cases h
      simpa [List.isEmpty_iff] using reported
  next e c hx =>
    cases h
    simp [Cursor.report]

/-- Parsing accepts a token list if and only if it derives a program, and then gives the tree of
every derivation, up to the identities of references; otherwise it gives errors. -/
theorem parseProgram_accepts_grammar (lo : RefId) (tokens : List Token) (h : Terminated tokens) :
    ((∃ program hi, parseProgram lo tokens = .ok (program, hi)) ↔
      ∃ tree, DerivesProgram tokens tree) ∧
    (∀ program hi, parseProgram lo tokens = .ok (program, hi) →
      DerivesProgram tokens program ∧
        ∀ tree, DerivesProgram tokens tree → unnumberedStmts program = unnumberedStmts tree) ∧
    ((¬∃ tree, DerivesProgram tokens tree) →
      ∃ e errors, parseProgram lo tokens = .error (e :: errors)) := by
  obtain ⟨ts, last, rfl, hlast, hts⟩ := h
  have derives {program : List Stmt} {hi : RefId}
      (accepted : parseProgram lo (ts ++ [last]) = .ok (program, hi)) :
      DerivesProgram (ts ++ [last]) program := by
    have derivation := (parseProgram_derives accepted).1
    rw [takeWhile_append_eof hlast hts] at derivation
    exact ⟨ts, last, rfl, hlast, derivation⟩
  have accepts {tree : List Stmt} (derivation : DerivesProgram (ts ++ [last]) tree) :
      ∃ program hi, parseProgram lo (ts ++ [last]) = .ok (program, hi) ∧
        unnumberedStmts program = unnumberedStmts tree := by
    -- A derivation may cut the list its own way, but the last token is the end either way.
    obtain ⟨ts', last', same, -, derivation⟩ := derivation
    obtain ⟨rfl, -⟩ := List.append_inj' same rfl
    exact parseProgram_of_derives hlast hts derivation lo
  refine ⟨⟨?_, ?_⟩, ?_, ?_⟩
  · rintro ⟨program, hi, accepted⟩
    exact ⟨program, derives accepted⟩
  · rintro ⟨tree, derivation⟩
    obtain ⟨program, hi, accepted, -⟩ := accepts derivation
    exact ⟨program, hi, accepted⟩
  · intro program hi accepted
    refine ⟨derives accepted, fun tree derivation => ?_⟩
    obtain ⟨program', hi', accepted', same⟩ := accepts derivation
    rw [accepted] at accepted'
    cases accepted'
    exact same
  · intro underivable
    cases outcome : parseProgram lo (ts ++ [last]) with
    | ok result => exact absurd ⟨result.1, derives outcome⟩ underivable
    | error errors =>
      cases errors with
      | nil => exact absurd rfl (parseProgram_error_ne_nil outcome)
      | cons e errors => exact ⟨e, errors, rfl⟩

def symbolToken (s : Symbol) : Token :=
  ⟨.symbol s, s.spelling, 1⟩

def nameToken (name : String) : Token :=
  ⟨.symbol .identifier, name, 1⟩

def nestedConditions : List Token :=
  [symbolToken .ifKw, symbolToken .leftParen, nameToken "a", symbolToken .rightParen,
    symbolToken .ifKw, symbolToken .leftParen, nameToken "b", symbolToken .rightParen,
    nameToken "c", symbolToken .dot, nameToken "d", symbolToken .equal, nameToken "e",
    symbolToken .semicolon, symbolToken .elseKw, nameToken "f", symbolToken .equal, nameToken "g",
    symbolToken .semicolon, ⟨.symbol .eof, "", 1⟩]

theorem parseProgram_accepts_nestedConditions :
    Terminated nestedConditions ∧
      ∀ tree, DerivesProgram nestedConditions tree → unnumberedStmts tree =
        [.conditional (.variable 0 (nameToken "a"))
          (.conditional (.variable 0 (nameToken "b"))
            (.expression (.set (.variable 0 (nameToken "c")) (nameToken "d")
              (.variable 0 (nameToken "e"))))
            (some (.expression (.assign 0 (nameToken "f") (.variable 0 (nameToken "g"))))))
          none] := by
  have terminated : Terminated nestedConditions :=
    ⟨nestedConditions.dropLast, ⟨.symbol .eof, "", 1⟩, rfl, by decide, by decide⟩
  have accepted : parseProgram 0 nestedConditions =
      .ok ([.conditional (.variable 0 (nameToken "a"))
        (.conditional (.variable 1 (nameToken "b"))
          (.expression (.set (.variable 2 (nameToken "c")) (nameToken "d")
            (.variable 3 (nameToken "e"))))
          (some (.expression (.assign 6 (nameToken "f") (.variable 5 (nameToken "g"))))))
        none], 7) := by cbv
  refine ⟨terminated, fun tree derivation => ?_⟩
  have agree := (parseProgram_accepts_grammar 0 _ terminated).2.1 _ _ accepted
  rw [← agree.2 tree derivation]
  rfl

end Quill
