import Quill.Proofs.Number.Texts
import Quill.Proofs.Token.Rendering
import Quill.Proofs.Tree.Forms
import Quill.Proofs.Tree.Tokens

set_option autoImplicit false

namespace Quill

structure IsName (text : String) : Prop where
  first : ∃ c rest, text.toList = c :: rest ∧ (c.isAlpha ∨ c = '_')
  word : IsWord text
  noKeyword : ∀ s ∈ Symbol.keywords, text ≠ s.spelling

structure Token.Spelled (t : Token) : Prop where
  symbol : ∀ s, s ≠ .identifier → t.is s → t.lexeme = s.spelling
  name : t.is .identifier → IsName t.lexeme

theorem isWordPart_inside {b : UInt8} (h : Lexeme.isWordPart b) :
    Lexeme.char b ∉ [' ', '(', ')', '\x7b', '\x7d'] := by
  intro mem
  simp only [List.mem_cons, List.not_mem_nil, or_false] at mem
  unfold Lexeme.isWordPart Lexeme.isWordStart Lexeme.isDigit at h
  rcases mem with same | same | same | same | same <;> rw [same] at h <;> cases h

theorem spelled_of_lexical {t : Token}
    (lexical : Lexeme.Lexical (Utf8.encode t.lexeme) (.token t.kind)) : t.Spelled := by
  have text := Utf8.decodeLossy_encode t.lexeme
  -- What the bytes say is all that is needed, and the grammar of lexemes is over bytes.
  generalize Utf8.encode t.lexeme = bytes at lexical text
  obtain ⟨kind, lexeme, line⟩ := t
  dsimp only at lexical text
  cases lexical with
  | @symbol first rest s spelled =>
    rw [Utf8.decodeLossy_of_ascii (Lexeme.ascii_of_spelled spelled), spelled,
      String.ofList_toList] at text
    constructor
    · intro s' _ same
      rw [Token.is_iff] at same
      cases same
      exact text.symm
    · intro same
      rw [Token.is_iff] at same
      cases same
      cases spelled
  | @identifier first rest starts goesOn noKeyword =>
    rw [Utf8.decodeLossy_of_ascii (Lexeme.ascii_of_word starts goesOn)] at text
    subst text
    constructor
    · intro s' other same
      rw [Token.is_iff] at same
      cases same
      exact absurd rfl other
    · intro _
      refine ⟨⟨Lexeme.char first, rest.map Lexeme.char, String.toList_ofList, ?_⟩, ⟨?_, ?_⟩,
        fun s mem same => noKeyword s mem ?_⟩
      · simpa [Lexeme.isWordStart] using starts
      · simp
      · rw [String.toList_ofList, List.forall_mem_map]
        intro b mem
        rcases List.mem_cons.mp mem with rfl | mem
        · exact isWordPart_inside (by simp [Lexeme.isWordPart, starts])
        · exact isWordPart_inside (goesOn b mem)
      · rw [← same, String.toList_ofList]
  | number | string =>
    constructor
    · intro s _ same
      cases same
    · intro same
      cases same

theorem scanTokens_spelled {source : List UInt8} {ts : List Token}
    (scanned : scanTokens source = .ok ts) : ∀ t ∈ ts.takeWhile (!·.is .eof), t.Spelled := by
  obtain ⟨-, same⟩ := scanTokens_ok_iff.mp scanned
  rw [scan_eq, tokensOf_append] at same
  rw [← same] at scanned
  obtain ⟨lexical, last⟩ := scanTokens_lexical scanned
  intro t mem
  have notLast := List.mem_takeWhile_imp mem
  rw [← same] at mem
  rcases List.mem_append.mp ((List.takeWhile_subset _) mem) with mem | mem
  · exact spelled_of_lexical (lexical t mem)
  · rw [List.mem_singleton.mp mem] at notLast
    cases notLast

theorem Literal.numberText_word {x : Float} (finite : (Double.ofFloat x).IsFinite) :
    IsWord (numberText (.ofFloat x)) ∧
      ∃ c rest, (numberText (.ofFloat x)).toList = c :: rest ∧ (c.isDigit ∨ c = '-') := by
  obtain ⟨negative, magnitude, isFinite⟩ := finite
  obtain ⟨text, _, printed, spells, -⟩ :=
    numberText_spells (Double.ofBits_canonical isFinite) negative
  obtain ⟨chars, first⟩ := numeral_chars spells.numeral
  have inside : ∀ c ∈ text, c ∉ [' ', '(', ')', '\x7b', '\x7d'] := by
    intro c mem outside
    simp only [List.mem_cons, List.not_mem_nil, or_false] at outside
    rcases outside with rfl | rfl | rfl | rfl | rfl <;> exact absurd (chars _ mem) (by decide)
  unfold IsWord
  rw [isFinite, printed]
  cases negative with
  | false =>
    obtain ⟨c, rest, rfl, isDigit⟩ := first
    simp only [signed, Bool.false_eq_true, if_false, String.toList_ofList]
    exact ⟨⟨List.cons_ne_nil c rest, inside⟩, c, rest, rfl, .inl isDigit⟩
  | true =>
    simp only [signed, if_true, String.toList_append, String.toList_ofList]
    refine ⟨⟨List.cons_ne_nil '-' text, ?_⟩, '-', text, rfl, .inr rfl⟩
    exact List.forall_mem_cons.mpr ⟨by decide, inside⟩

end Quill
