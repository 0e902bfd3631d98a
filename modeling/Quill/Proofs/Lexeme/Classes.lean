import Mathlib
import Quill.Proofs.Text.Lossy

set_option autoImplicit false

namespace Quill

namespace Lexeme

@[simp] theorem char_toNat (b : UInt8) : (char b).toNat = b.toNat := by
  have small := b.toNat_lt
  have valid : b.toNat.isValidChar := Or.inl (by omega)
  simp [char, Char.ofNat, valid, Char.ofNatAux, Char.toNat, UInt32.toNat]

theorem char_eq_iff {b : UInt8} {c : Char} : char b = c ↔ b.toNat = c.toNat := by
  rw [← Char.toNat_inj, char_toNat]

theorem isDigit_iff {b : UInt8} : isDigit b ↔ 48 ≤ b.toNat ∧ b.toNat ≤ 57 := by
  simp [isDigit, Char.isDigit, UInt32.le_iff_toNat_le, Char.toNat_val]

theorem isWordStart_iff {b : UInt8} : isWordStart b ↔
    65 ≤ b.toNat ∧ b.toNat ≤ 90 ∨ 97 ≤ b.toNat ∧ b.toNat ≤ 122 ∨ b.toNat = 95 := by
  simp [isWordStart, Char.isAlpha, Char.isUpper, Char.isLower, UInt32.le_iff_toNat_le,
    Char.toNat_val, char_eq_iff, or_assoc]

theorem ascii_of_char {b : UInt8} {c : Char} (h : char b = c) (small : c.toNat < 0x80) :
    b < 0x80 := by
  rw [UInt8.lt_iff_toNat_lt, char_eq_iff.mp h]
  exact small

theorem ascii_of_digit {b : UInt8} (h : isDigit b) : b < 0x80 := by
  have := isDigit_iff.mp h
  exact UInt8.lt_iff_toNat_lt.mpr (Nat.lt_of_le_of_lt this.2 (by decide))

theorem ascii_of_wordStart {b : UInt8} (h : isWordStart b) : b < 0x80 := by
  have bound : b.toNat ≤ 122 := by
    have := isWordStart_iff.mp h
    omega
  exact UInt8.lt_iff_toNat_lt.mpr (Nat.lt_of_le_of_lt bound (by decide))

theorem ascii_of_wordPart {b : UInt8} (h : isWordPart b) : b < 0x80 := by
  rcases Bool.or_eq_true_iff.mp h with h | h
  · exact ascii_of_wordStart h
  · exact ascii_of_digit h

theorem ascii_of_word {first : UInt8} {rest : List UInt8} (starts : isWordStart first)
    (goesOn : ∀ b ∈ rest, isWordPart b) : ∀ b ∈ first :: rest, b < 0x80 :=
  List.forall_mem_cons.mpr
    ⟨ascii_of_wordStart starts, fun b mem => ascii_of_wordPart (goesOn b mem)⟩

theorem char_of_blank {b : UInt8} (h : isBlank b) :
    char b = ' ' ∨ char b = '\r' ∨ char b = '\t' ∨ char b = '\n' := by
  simpa [isBlank, isNewline, or_assoc] using h

theorem ascii_of_blank {b : UInt8} (h : isBlank b) : b < 0x80 := by
  rcases char_of_blank h with c | c | c | c <;> exact ascii_of_char c (by decide)

theorem char_of_quote {b : UInt8} (h : isQuote b) : char b = '"' := by
  simpa [isQuote] using h

theorem ascii_of_quote {b : UInt8} (h : isQuote b) : b < 0x80 :=
  ascii_of_char (char_of_quote h) (by decide)

inductive Numeral : List UInt8 → Prop where
  | whole {digits : List UInt8} (nonempty : digits ≠ []) (all : ∀ b ∈ digits, isDigit b) :
    Numeral digits
  | decimal {whole : List UInt8} {point : UInt8} {fraction : List UInt8}
    (nonempty : whole ≠ []) (all : ∀ b ∈ whole, isDigit b) (isPoint : char point = '.')
    (nonemptyFraction : fraction ≠ []) (allFraction : ∀ b ∈ fraction, isDigit b) :
    Numeral (whole ++ point :: fraction)

inductive Lexical : List UInt8 → Content → Prop where
  | symbol {first : UInt8} {rest : List UInt8} {s : Symbol}
    (spelled : (first :: rest).map char = s.spelling.toList) :
    Lexical (first :: rest) (.token (.symbol s))
  | identifier {first : UInt8} {rest : List UInt8} (starts : isWordStart first)
    (goesOn : ∀ b ∈ rest, isWordPart b)
    (noKeyword : ∀ s ∈ Symbol.keywords, (first :: rest).map char ≠ s.spelling.toList) :
    Lexical (first :: rest) (.token (.symbol .identifier))
  | number {bytes : List UInt8} {value : Float} (numeral : Numeral bytes)
    (read : Number.read? (Utf8.decodeLossy bytes) = some value) :
    Lexical bytes (.token (.number value))
  | string {opening closing : UInt8} {contents : List UInt8} (opens : isQuote opening)
    (between : ∀ b ∈ contents, isQuote b = false) (closes : isQuote closing) :
    Lexical (opening :: (contents ++ [closing])) (.token (.string (Utf8.decodeLossy contents)))
  | unterminated {opening : UInt8} {contents : List UInt8} (opens : isQuote opening)
    (between : ∀ b ∈ contents, isQuote b = false) :
    Lexical (opening :: contents) (.fault .unterminatedString)
  | comment {first second : UInt8} {text : List UInt8} (slash : char first = '/')
    (again : char second = '/') (within : ∀ b ∈ text, isNewline b = false) :
    Lexical (first :: second :: text) .comment
  | blank {b : UInt8} (isBlank : isBlank b) : Lexical [b] .blank
  | stray {b : UInt8} (ascii : b < 0x80)
    (noSymbol : ∀ s : Symbol, s.spelling.toList.head? ≠ some (char b))
    (noBlank : isBlank b = false) (noString : isQuote b = false) (noNumber : isDigit b = false)
    (noWord : isWordStart b = false) :
    Lexical [b] (.fault (.unexpected (String.singleton (char b))))
  | wide {first : UInt8} {rest : List UInt8} (wide : 0x80 ≤ first)
    (goesOn : ∀ b ∈ rest, isContinuation b) :
    Lexical (first :: rest) (.fault (.unexpected (Utf8.decodeLossy (first :: rest))))

theorem readSign_digits {text : List Char} (digits : ∀ c ∈ text.head?, c.isDigit) :
    Number.readSign text = (false, text) := by
  unfold Number.readSign
  split
  next => exact absurd (digits '-' rfl) (by decide)
  next => exact absurd (digits '+' rfl) (by decide)
  next => rfl

theorem read?_of_mantissa {text : List Char} {digits : Nat} {exponent : Int}
    (unsigned : ∀ c ∈ text.head?, c.isDigit)
    (read : Number.readMantissa? text = some (digits, exponent, [])) :
    ∃ value, Number.read? (String.ofList text) = some value := by
  refine ⟨Number.ofDecimal digits (exponent + 0), ?_⟩
  simp [Number.read?, readSign_digits unsigned, Number.readMagnitude?, read, Number.readExponent?]

theorem readMantissa?_whole {digits : List Char} (nonempty : digits ≠ [])
    (all : ∀ c ∈ digits, c.isDigit) :
    Number.readMantissa? digits = some (Number.natOfDigits digits, 0, []) := by
  have taken := List.takeWhile_eq_self_iff.mpr all
  have dropped := List.dropWhile_eq_nil_iff.mpr all
  simp [Number.readMantissa?, taken, dropped, nonempty]

theorem readMantissa?_decimal {whole fraction : List Char} (nonempty : whole ≠ [])
    (all : ∀ c ∈ whole, c.isDigit) (allFraction : ∀ c ∈ fraction, c.isDigit) :
    Number.readMantissa? (whole ++ '.' :: fraction) =
      some (Number.natOfDigits (whole ++ fraction), -(fraction.length : Int), []) := by
  have taken : (whole ++ '.' :: fraction).takeWhile Char.isDigit = whole := by
    rw [List.takeWhile_append_of_pos all, List.takeWhile_cons_of_neg (by decide), List.append_nil]
  have dropped : (whole ++ '.' :: fraction).dropWhile Char.isDigit = '.' :: fraction := by
    rw [List.dropWhile_append_of_pos all, List.dropWhile_cons_of_neg (by decide)]
  have takenFraction := List.takeWhile_eq_self_iff.mpr allFraction
  have droppedFraction := List.dropWhile_eq_nil_iff.mpr allFraction
  simp [Number.readMantissa?, taken, dropped, takenFraction, droppedFraction, nonempty]

theorem Numeral.ascii {bytes : List UInt8} (h : Numeral bytes) : ∀ b ∈ bytes, b < 0x80 := by
  intro b mem
  cases h with
  | whole _ all => exact ascii_of_digit (all b mem)
  | decimal _ all isPoint _ allFraction =>
    simp only [List.mem_append, List.mem_cons] at mem
    rcases mem with mem | rfl | mem
    · exact ascii_of_digit (all b mem)
    · exact ascii_of_char isPoint (by decide)
    · exact ascii_of_digit (allFraction b mem)

theorem Numeral.readable {bytes : List UInt8} (h : Numeral bytes) :
    ∃ value, Number.read? (Utf8.decodeLossy bytes) = some value := by
  rw [Utf8.decodeLossy_of_ascii h.ascii]
  have head {digits : List UInt8} (nonempty : digits ≠ []) (all : ∀ b ∈ digits, isDigit b)
      (rest : List Char) : ∀ c ∈ (digits.map char ++ rest).head?, c.isDigit := by
    cases digits with
    | nil => exact absurd rfl nonempty
    | cons b _ =>
      rintro c ⟨⟩
      exact all b List.mem_cons_self
  cases h with
  | whole nonempty all =>
    have read := readMantissa?_whole (by simpa using nonempty) (List.forall_mem_map.mpr all)
    exact read?_of_mantissa (by simpa using head nonempty all []) read
  | decimal nonempty all isPoint _ allFraction =>
    rw [List.map_append, List.map_cons, isPoint]
    have read := readMantissa?_decimal (by simpa using nonempty) (List.forall_mem_map.mpr all)
      (List.forall_mem_map.mpr allFraction)
    exact read?_of_mantissa (head nonempty all _) read

theorem spelling_ascii (s : Symbol) : ∀ c ∈ s.spelling.toList, c.toNat < 0x80 := by
  have all : s.spelling.toList.all fun c => c.toNat < 0x80 := by cases s <;> rfl
  simpa only [List.all_eq_true, decide_eq_true_eq] using all

theorem ascii_of_spelled {bytes : List UInt8} {s : Symbol}
    (spelled : bytes.map char = s.spelling.toList) : ∀ b ∈ bytes, b < 0x80 := by
  intro b mem
  have spells : char b ∈ s.spelling.toList := spelled ▸ List.mem_map_of_mem mem
  exact ascii_of_char rfl (spelling_ascii s _ spells)

theorem spelling_of_punctuation {c : Char} {s : Symbol} (h : punctuation? c = some s) :
    s.spelling.toList = [c] := by
  unfold punctuation? at h
  split at h <;> cases h <;> rfl

theorem spelling_of_operators {c : Char} {alone withEqual : Symbol}
    (h : operators? c = some (alone, withEqual)) :
    alone.spelling.toList = [c] ∧ withEqual.spelling.toList = [c, '='] := by
  unfold operators? at h
  split at h <;> cases h <;> exact ⟨rfl, rfl⟩

theorem spelling_cases (s : Symbol) (spelled : s.spelling.toList ≠ []) :
    (∃ c, s.spelling.toList = [c] ∧ punctuation? c = some s) ∨
    (∃ c withEqual, s.spelling.toList = [c] ∧ operators? c = some (s, withEqual)) ∨
    (∃ c alone, s.spelling.toList = [c, '='] ∧ operators? c = some (alone, s)) ∨
    s = .slash ∨ s ∈ Symbol.keywords := by
  cases s
  case identifier | eof => exact absurd rfl spelled
  all_goals first
    | exact .inl ⟨_, rfl, rfl⟩
    | exact .inr (.inl ⟨_, _, rfl, rfl⟩)
    | exact .inr (.inr (.inl ⟨_, _, rfl, rfl⟩))
    | exact .inr (.inr (.inr (by decide)))

theorem keyword_letters : ∀ s ∈ Symbol.keywords, ∀ c ∈ s.spelling.toList, c.isAlpha := by
  have all : Symbol.keywords.all fun s => s.spelling.toList.all Char.isAlpha := rfl
  simpa only [List.all_eq_true] using all

theorem ofWord_spelling : ∀ s ∈ Symbol.keywords, Symbol.ofWord s.spelling = s := by
  decide

end Lexeme
end Quill
