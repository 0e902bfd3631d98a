import Quill.Proofs.Grammar.Lookahead
import Quill.Proofs.Token.Scanning

set_option autoImplicit false

namespace Quill

namespace Lexeme

theorem spelling_newline (s : Symbol) : '\n' ∉ s.spelling.toList := by
  cases s <;> decide

theorem isWordPart_newline {b : UInt8} (newline : isNewline b) : isWordPart b = false := by
  have same : char b = '\n' := by simpa [isNewline] using newline
  simp [isWordPart, isWordStart, isDigit, same]

theorem Numeral.no_newline {bytes : List UInt8} (h : Numeral bytes) :
    ∀ b ∈ bytes, isNewline b = false := by
  have digit {b : UInt8} (h : isDigit b) : isNewline b = false := by
    by_contra newline
    have part := isWordPart_newline (by simpa using newline)
    simp [isWordPart, h] at part
  intro b mem
  cases h with
  | whole _ all => exact digit (all b mem)
  | decimal _ all isPoint _ allFraction =>
    simp only [List.mem_append, List.mem_cons] at mem
    rcases mem with mem | rfl | mem
    · exact digit (all b mem)
    · simp [isNewline, isPoint]
    · exact digit (allFraction b mem)

theorem Lexical.of_newline {source more : List UInt8} {newline : UInt8} {content : Content}
    (h : Lexical (source ++ newline :: more) content) (some : source ≠ [])
    (ends : isNewline newline) : Lexical source (.fault .unterminatedString) := by
  obtain ⟨first, front, rfl⟩ := List.exists_cons_of_ne_nil some
  have later : newline ∈ front ++ newline :: more := by simp
  have inside : newline ∈ first :: (front ++ newline :: more) := List.mem_cons_of_mem _ later
  rw [List.cons_append] at h
  generalize whole : first :: (front ++ newline :: more) = bytes at h inside
  -- Of all classes only strings have members with a newline behind the first byte.
  cases h with
  | @symbol _ _ s spelled =>
    have spells : char newline ∈ s.spelling.toList := spelled ▸ List.mem_map_of_mem inside
    rw [show char newline = '\n' by simpa [isNewline] using ends] at spells
    exact absurd spells (spelling_newline s)
  | identifier _ goesOn =>
    obtain ⟨rfl, rfl⟩ := List.cons.inj whole
    have part := goesOn _ later
    rw [isWordPart_newline ends] at part
    cases part
  | number numeral =>
    rw [numeral.no_newline newline inside] at ends
    cases ends
  | @string opening closing contents opens between closes =>
    obtain ⟨rfl, same⟩ := List.cons.inj whole
    have within : front <+: contents := by
      refine List.prefix_of_prefix_length_le ⟨_, same⟩ (List.prefix_append contents [closing]) ?_
      have length := congrArg List.length same
      simp only [List.length_append, List.length_cons, List.length_nil] at length
      omega
    exact .unterminated opens fun b mem => between b (within.subset mem)
  | unterminated opens between =>
    obtain ⟨rfl, rfl⟩ := List.cons.inj whole
    exact .unterminated opens fun b mem => between b (List.mem_append_left _ mem)
  | comment _ again within =>
    obtain ⟨rfl, same⟩ := List.cons.inj whole
    rw [same] at later
    rcases List.mem_cons.mp later with rfl | mem
    · simp [isNewline, again] at ends
    · rw [within newline mem] at ends
      cases ends
  | blank | stray =>
    have length := congrArg List.length whole
    simp at length
  | wide _ goesOn =>
    obtain ⟨rfl, rfl⟩ := List.cons.inj whole
    have part := goesOn newline later
    have same : newline.toNat = '\n'.toNat := char_eq_iff.mp (by simpa [isNewline] using ends)
    simp [isContinuation, UInt8.le_iff_toNat_le, same] at part

theorem Longest.append_newline {source more : List UInt8} {newline : UInt8} {l : Lexeme}
    (h : Longest source l) (ends : isNewline newline)
    (closed : l.content ≠ .fault .unterminatedString) : Longest (source ++ newline :: more) l := by
  refine ⟨h.lexical, h.front.trans (List.prefix_append _ _), fun bytes content lexical front => ?_⟩
  have some : source ≠ [] := by
    rintro rfl
    have pos := h.lexical.pos
    rw [List.prefix_nil.mp h.front] at pos
    cases pos
  by_cases fits : bytes.length ≤ source.length
  · have inner := List.prefix_of_prefix_length_le front (List.prefix_append source _) fits
    exact h.longest bytes content lexical inner
  -- What is longer than the source goes on behind the newline, so the source ends in a string.
  obtain ⟨extra, rfl⟩ :=
    List.prefix_of_prefix_length_le (List.prefix_append source _) front (by omega)
  obtain ⟨b, extra, rfl⟩ :=
    List.exists_cons_of_ne_nil (l := extra) fun none => by simp [none] at fits
  obtain ⟨rfl, -⟩ := List.cons_prefix_cons.mp ((List.prefix_append_right_inj source).mp front)
  have open' := lexical.of_newline some ends
  have all : l.bytes = source :=
    h.front.eq_of_length_le (h.longest source _ open' List.prefix_rfl)
  exact absurd (h.lexical.content_unique (all ▸ open')) closed

theorem Cut.append {source more : List UInt8} {newline : UInt8} {lexemes others : List Lexeme}
    (cut : Cut source lexemes) (next : Cut (newline :: more) others) (ends : isNewline newline)
    (closed : ∀ l ∈ lexemes, l.content ≠ .fault .unterminatedString) :
    Cut (source ++ newline :: more) (lexemes ++ others) := by
  induction cut with
  | done => exact next
  | @step l rest lexemes longest _ ih =>
    have first : Longest (l.bytes ++ rest ++ newline :: more) l :=
      longest.append_newline ends (closed l List.mem_cons_self)
    rw [List.append_assoc] at first ⊢
    exact .step first (ih fun l' mem => closed l' (List.mem_cons_of_mem _ mem))

theorem split_append {source more : List UInt8} {newline : UInt8} (ends : isNewline newline)
    (closed : ∀ l ∈ split source, l.content ≠ .fault .unterminatedString) :
    split (source ++ newline :: more) = split source ++ split (newline :: more) :=
  ((cut_split source).append (cut_split (newline :: more)) ends closed).eq_split.symm

end Lexeme

/-- The source of a statement that prints the value of an expression. A newline stands before the
semicolon, as the expression may end in a comment. -/
def printingOf (source : List UInt8) : List UInt8 :=
  "print ".toUTF8.data.toList ++ (source ++ "\n;".toUTF8.data.toList)

theorem split_printingOf {source : List UInt8}
    (closed : ∀ l ∈ Lexeme.split source, l.content ≠ .fault .unterminatedString) :
    Lexeme.split (printingOf source) =
      [⟨"print".toUTF8.data.toList, .token (.symbol .printKw)⟩, ⟨[32], .blank⟩] ++
        (Lexeme.split source ++ [⟨[10], .blank⟩, ⟨[59], .token (.symbol .semicolon)⟩]) := by
  have bytes : printingOf source =
      112 :: ([114, 105, 110, 116] ++ 32 :: (source ++ [10, 59])) := rfl
  have stop : ∀ b ∈ (32 :: (source ++ [10, 59])).head?, Lexeme.isWordPart b = false := by
    rintro b ⟨⟩
    decide
  have letters : ∀ b ∈ [114, 105, 110, 116], Lexeme.isWordPart b := List.all_eq_true.mp rfl
  have keyword : Symbol.ofWord (Utf8.decodeLossy [112, 114, 105, 110, 116]) = .printKw := by cbv
  have word : Lexeme.next 112 ([114, 105, 110, 116] ++ 32 :: (source ++ [10, 59])) =
      (⟨"print".toUTF8.data.toList, .token (.symbol .printKw)⟩, 32 :: (source ++ [10, 59])) := by
    rw [Lexeme.next_wordStart (by decide), Lexeme.word, Lexeme.run_append letters stop]
    simp only [keyword]
    rfl
  have semicolon : Lexeme.split [10, 59] =
      [⟨[10], .blank⟩, ⟨[59], .token (.symbol .semicolon)⟩] := by cbv
  -- The keyword ends at the blank; what follows is cut as if it stood alone.
  rw [bytes, Lexeme.split, word]
  dsimp only
  rw [Lexeme.split, Lexeme.next_blank (by decide)]
  dsimp only
  rw [Lexeme.split_append (by decide) closed, semicolon]
  rfl

theorem tokensOf_append (items more : List (Except Error Token)) :
    tokensOf (items ++ more) = tokensOf items ++ tokensOf more := by
  induction items with
  | nil => rfl
  | cons item items ih => cases item <;> simp [tokensOf, ih]

theorem errorsOf_append (items more : List (Except Error Token)) :
    errorsOf (items ++ more) = errorsOf items ++ errorsOf more := by
  induction items with
  | nil => rfl
  | cons item items ih => cases item <;> simp [errorsOf, ih]

theorem itemsFrom_append (line : Nat) (lexemes : List Lexeme) :
    ∃ items reached, itemsFrom line lexemes = items ++ [.ok ⟨.symbol .eof, "", reached⟩] ∧
      ∀ more, itemsFrom line (lexemes ++ more) = items ++ itemsFrom reached more := by
  induction lexemes generalizing line with
  | nil => exact ⟨[], line, rfl, fun _ => rfl⟩
  | cons l lexemes ih =>
    obtain ⟨items, reached, alone, before⟩ := ih (line + l.newlines)
    refine ⟨(l.item? (line + l.newlines)).toList ++ items, reached, ?_, fun more => ?_⟩
    · rw [itemsFrom_cons, alone, List.append_assoc]
    · rw [List.cons_append, itemsFrom_cons, before, List.append_assoc]

theorem no_fault_of_errorsOf {line : Nat} {lexemes : List Lexeme}
    (none : errorsOf (itemsFrom line lexemes) = []) :
    ∀ l ∈ lexemes, ∀ fault, l.content ≠ .fault fault := by
  induction lexemes generalizing line with
  | nil => simp
  | cons l lexemes ih =>
    rw [itemsFrom_cons, errorsOf_append, List.append_eq_nil_iff] at none
    intro l' mem fault content
    rcases List.mem_cons.mp mem with rfl | mem
    · simp [Lexeme.item?, content, errorsOf] at none
    · exact ih none.2 l' mem fault content

theorem scanTokens_ok_iff {source : List UInt8} {tokens : List Token} :
    scanTokens source = .ok tokens ↔
      errorsOf (scan source) = [] ∧ tokensOf (scan source) = tokens := by
  unfold scanTokens
  dsimp only
  split
  next none => simp [none]
  next errors some => exact ⟨nofun, fun both => absurd both.1 some⟩

theorem scanTokens_printingOf {source : List UInt8} {tokens : List Token}
    (scanned : scanTokens source = .ok tokens) :
    ∃ ts line, tokens = ts ++ [⟨.symbol .eof, "", line⟩] ∧ (∀ t ∈ ts, ¬t.is .eof) ∧
      scanTokens (printingOf source) = .ok (⟨.symbol .printKw, "print", 1⟩ ::
        (ts ++ [⟨.symbol .semicolon, ";", line + 1⟩, ⟨.symbol .eof, "", line + 1⟩])) := by
  obtain ⟨clean, rfl⟩ := scanTokens_ok_iff.mp scanned
  have closed l mem := no_fault_of_errorsOf clean l mem .unterminatedString
  obtain ⟨items, line, alone, before⟩ := itemsFrom_append 1 (Lexeme.split source)
  have alone : scan source = items ++ [.ok ⟨.symbol .eof, "", line⟩] := alone
  have whole : scan (printingOf source) = .ok ⟨.symbol .printKw, "print", 1⟩ :: (items ++
      [.ok ⟨.symbol .semicolon, ";", line + 1⟩, .ok ⟨.symbol .eof, "", line + 1⟩]) := by
    rw [scan, split_printingOf closed, List.cons_append, List.cons_append, itemsFrom_cons,
      itemsFrom_cons, List.nil_append]
    exact congrArg _ (before _)
  refine ⟨tokensOf items, line, ?_, fun t mem eof => ?_, scanTokens_ok_iff.mpr ⟨?_, ?_⟩⟩
  · rw [alone, tokensOf_append]
    rfl
  · have shown := (scan_eq source).symm.trans alone
    obtain ⟨rfl, -⟩ := List.append_inj' shown rfl
    obtain ⟨bytes, lexical, -⟩ := mem_items (tokensOf_mem.mp mem)
    exact eof_not_lexical ((Token.is_iff t .eof).mp eof ▸ lexical)
  · rw [alone, errorsOf_append, List.append_eq_nil_iff] at clean
    rw [whole, errorsOf, errorsOf_append, clean.1]
    rfl
  · rw [whole, tokensOf, tokensOf_append]
    rfl

end Quill
