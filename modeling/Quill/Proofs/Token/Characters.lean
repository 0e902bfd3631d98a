import Quill.Proofs.Text.Boundaries
import Quill.Proofs.Token.Rendering

set_option autoImplicit false

namespace Quill

namespace Lexeme

theorem ends_ascii {bytes : List UInt8} (nonempty : bytes ≠ []) (ascii : ∀ b ∈ bytes, b < 0x80) :
    ∃ front last, bytes = front ++ [last] ∧ last < 0x80 := by
  obtain ⟨front, last, rfl⟩ := (List.eq_nil_or_concat' bytes).resolve_left nonempty
  exact ⟨front, last, rfl, ascii last (by simp)⟩

theorem isQuote_continuation {b : UInt8} (continues : isContinuation b) : isQuote b = false := by
  have wide := Utf8.not_ascii_of_continuation continues
  simpa using mt ascii_of_quote wide

theorem isNewline_continuation {b : UInt8} (continues : isContinuation b) :
    isNewline b = false := by
  have wide := Utf8.not_ascii_of_continuation continues
  simpa [isNewline] using mt (ascii_of_char · (by decide)) wide

theorem Lexical.ends {bytes : List UInt8} {content : Content} (h : Lexical bytes content) :
    (∃ front last, bytes = front ++ [last] ∧ last < 0x80) ∨
      ∀ b, isContinuation b → ∃ content', Lexical (bytes ++ [b]) content' := by
  cases h with
  | symbol spelled => exact .inl (ends_ascii (List.cons_ne_nil _ _) (ascii_of_spelled spelled))
  | identifier starts goesOn =>
    exact .inl (ends_ascii (List.cons_ne_nil _ _) (ascii_of_word starts goesOn))
  | number numeral read =>
    have nonempty := List.length_pos_iff.mp (Lexical.number numeral read).pos
    exact .inl (ends_ascii nonempty numeral.ascii)
  | @string opening closing contents _ _ closes =>
    exact .inl ⟨opening :: contents, closing, rfl, ascii_of_quote closes⟩
  | blank isBlank => exact .inl ⟨[], _, rfl, ascii_of_blank isBlank⟩
  | stray ascii => exact .inl ⟨[], _, rfl, ascii⟩
  -- These three may hold any bytes above ASCII, whether they belong together or not.
  | unterminated opens between =>
    refine .inr fun b continues => ⟨_, .unterminated opens ?_⟩
    have last : ∀ b' ∈ [b], isQuote b' = false :=
      List.forall_mem_singleton.mpr (isQuote_continuation continues)
    exact List.forall_mem_append.mpr ⟨between, last⟩
  | comment slash again within =>
    refine .inr fun b continues => ⟨_, .comment slash again ?_⟩
    have last : ∀ b' ∈ [b], isNewline b' = false :=
      List.forall_mem_singleton.mpr (isNewline_continuation continues)
    exact List.forall_mem_append.mpr ⟨within, last⟩
  | wide wide goesOn =>
    refine .inr fun b continues => ⟨_, .wide wide ?_⟩
    exact List.forall_mem_append.mpr ⟨goesOn, List.forall_mem_singleton.mpr continues⟩

theorem Longest.head_after {l : Lexeme} {rest : List UInt8} {text : String}
    (longest : Longest (l.bytes ++ rest) l) (whole : l.bytes ++ rest = Utf8.encode text) :
    ∀ b ∈ rest.head?, isContinuation b = false := by
  rcases longest.lexical.ends with ⟨front, last, same, ascii⟩ | goesOn
  · rw [same, List.append_assoc] at whole
    exact Utf8.head_after_ascii whole ascii
  · -- With a continuation byte behind it the lexeme would not be the longest.
    intro b mem
    by_contra continues
    obtain ⟨content, longer⟩ := goesOn b (by simpa using continues)
    obtain ⟨more, rfl⟩ := List.head?_eq_some_iff.mp mem
    have short := longest.longest _ content longer ⟨more, by simp⟩
    simp at short

end Lexeme

/-- A piece of a text that is one lexeme. -/
structure Span where
  text : String
  content : Content

namespace Span

def lexeme (s : Span) : Lexeme :=
  ⟨Utf8.encode s.text, s.content⟩

def token? (s : Span) : Option (Kind × String) :=
  match s.content with
  | .token kind => some (kind, s.text)
  | _ => none

def opens (c : Char) : Bool :=
  c.isAlpha || c.isDigit || c ∈ ['_', '"', ' ', '\r', '\t', '\n'] ||
    Symbol.all.any fun s => s.spelling.toList.head? == some c

/-- The characters of a span that are not in a string, a comment or a token, and begin none. -/
def strays (s : Span) : List Char :=
  match s.content with
  | .token _ | .comment | .fault .unterminatedString => []
  | .blank | .fault (.unexpected _) => s.text.toList.filter fun c => !opens c

end Span

theorem Lexeme.Cut.spans {source : List UInt8} {lexemes : List Lexeme}
    (cut : Lexeme.Cut source lexemes) {text : String} (bytes : source = Utf8.encode text) :
    ∃ spans : List Span, lexemes = spans.map Span.lexeme ∧
      spans.flatMap (·.text.toList) = text.toList := by
  induction cut generalizing text with
  | done =>
    have nothing : text = "" := by
      rw [← Utf8.decodeLossy_encode text, ← bytes]
      rfl
    exact ⟨[], rfl, by rw [nothing]; rfl⟩
  | @step l rest more longest _ ih =>
    -- No character goes on behind the first lexeme, so it is the beginning of the text.
    obtain ⟨front, back, rfl, this, behind⟩ :=
      Utf8.encode_split bytes (longest.head_after bytes)
    obtain ⟨spans, rfl, same⟩ := ih behind
    refine ⟨⟨front, l.content⟩ :: spans, ?_, ?_⟩
    · rw [List.map_cons, Span.lexeme, ← this]
    · rw [List.flatMap_cons, same, String.toList_append]

def Content.unexpected? : Content → Option String
  | .fault (.unexpected character) => some character
  | _ => none

def Error.unexpected? : Error → Option String
  | .lexical (.unexpected character) _ => some character
  | _ => none

theorem unexpected_errorsOf (line : Nat) (lexemes : List Lexeme) :
    (errorsOf (itemsFrom line lexemes)).filterMap Error.unexpected? =
      lexemes.filterMap (·.content.unexpected?) := by
  induction lexemes generalizing line with
  | nil => rfl
  | cons l lexemes ih =>
    rw [itemsFrom_cons, errorsOf_append, List.filterMap_append, ih, List.filterMap_cons]
    cases content : l.content with
    | fault fault =>
      cases fault <;>
        simp [Lexeme.item?, content, errorsOf, Error.unexpected?, Content.unexpected?]
    | _ => simp [Lexeme.item?, content, errorsOf, Content.unexpected?]

theorem Utf8.encode_singleton (c : Char) :
    encode (String.singleton c) = String.utf8EncodeChar c := by
  rw [encode_eq, String.toList_singleton, List.flatMap_singleton]

theorem Utf8.length_encode (text : String) : (encode text).length = text.utf8ByteSize := by
  rw [encode_eq, String.utf8ByteSize, ← String.utf8Encode_toList, List.utf8Encode,
    List.size_toByteArray]

theorem Utf8.eq_char_of_encode {text : String} {b : UInt8} (bytes : encode text = [b])
    (ascii : b < 0x80) : text = String.singleton (Lexeme.char b) := by
  rw [← decodeLossy_encode text, bytes, decodeLossy_singleton ascii]

theorem Utf8.wide_of_encodeChar {c : Char} {first : UInt8} {rest : List UInt8}
    (bytes : String.utf8EncodeChar c = first :: rest) (wide : 0x80 ≤ first) : 0x80 ≤ c.toNat := by
  by_contra small
  have byte : (UInt8.ofNat c.toNat).toNat = c.toNat := toNat_ofNat (by omega)
  have ascii : UInt8.ofNat c.toNat < 0x80 := by
    rw [UInt8.lt_iff_toNat_lt, byte]
    exact Nat.lt_of_not_le small
  have alone := encodeChar_char ascii
  rw [Lexeme.char_eq_iff.mpr byte, bytes] at alone
  obtain ⟨rfl, -⟩ := List.cons.inj alone
  exact absurd ascii (UInt8.not_lt.mpr wide)

namespace Span

theorem cases_of_opens {c : Char} (begins : opens c) :
    c.isAlpha ∨ c.isDigit ∨ c ∈ ['_', '"', ' ', '\r', '\t', '\n'] ∨
      ∃ s : Symbol, s.spelling.toList.head? = some c := by
  simp only [opens, Bool.or_eq_true, decide_eq_true_eq, List.any_eq_true, beq_iff_eq] at begins
  rcases begins with ((letter | digit) | mark) | ⟨s, -, spelled⟩
  · exact .inl letter
  · exact .inr (.inl digit)
  · exact .inr (.inr (.inl mark))
  · exact .inr (.inr (.inr ⟨s, spelled⟩))

theorem opens_wide {c : Char} (wide : 0x80 ≤ c.toNat) : opens c = false := by
  rw [Bool.eq_false_iff]
  intro begins
  rcases cases_of_opens begins with letter | digit | mark | ⟨s, spelled⟩
  · have small : c.toNat ≤ 122 := by
      simp [Char.isAlpha, Char.isUpper, Char.isLower, UInt32.le_iff_toNat_le, Char.toNat_val]
        at letter
      omega
    omega
  · have small : c.toNat ≤ 57 := by
      simp [Char.isDigit, UInt32.le_iff_toNat_le, Char.toNat_val] at digit
      exact digit.2
    omega
  · simp only [List.mem_cons, List.not_mem_nil, or_false] at mark
    rcases mark with rfl | rfl | rfl | rfl | rfl | rfl <;> exact absurd wide (by decide)
  · exact absurd wide (Nat.not_le.mpr (Lexeme.spelling_ascii s c (List.mem_of_mem_head? spelled)))

theorem opens_stray {b : UInt8}
    (noSymbol : ∀ s : Symbol, s.spelling.toList.head? ≠ some (Lexeme.char b))
    (noBlank : Lexeme.isBlank b = false) (noString : Lexeme.isQuote b = false)
    (noNumber : Lexeme.isDigit b = false) (noWord : Lexeme.isWordStart b = false) :
    opens (Lexeme.char b) = false := by
  rw [Bool.eq_false_iff]
  intro begins
  rcases cases_of_opens begins with letter | digit | mark | ⟨s, spelled⟩
  · simp [Lexeme.isWordStart, letter] at noWord
  · simp [Lexeme.isDigit, digit] at noNumber
  · simp only [List.mem_cons, List.not_mem_nil, or_false] at mark
    rcases mark with same | same | same | same | same | same
    · simp [Lexeme.isWordStart, same] at noWord
    · simp [Lexeme.isQuote, same] at noString
    all_goals simp [Lexeme.isBlank, Lexeme.isNewline, same] at noBlank
  · exact noSymbol s spelled

theorem opens_blank {b : UInt8} (blank : Lexeme.isBlank b) : opens (Lexeme.char b) := by
  rcases Lexeme.char_of_blank blank with c | c | c | c <;> rw [c] <;> decide

theorem unexpected_toList {s : Span} (lexical : Lexeme.Lexical (Utf8.encode s.text) s.content) :
    s.content.unexpected?.toList = s.strays.map String.singleton := by
  obtain ⟨text, content⟩ := s
  generalize bytes : Utf8.encode text = encoded at lexical
  cases lexical with
  | symbol | identifier | number | string | unterminated | comment => rfl
  | @blank b isBlank =>
    obtain rfl := Utf8.eq_char_of_encode bytes (Lexeme.ascii_of_blank isBlank)
    simp [strays, Content.unexpected?, opens_blank isBlank]
  | @stray b ascii noSymbol noBlank noString noNumber noWord =>
    obtain rfl := Utf8.eq_char_of_encode bytes ascii
    have begins := opens_stray noSymbol noBlank noString noNumber noWord
    simp [strays, Content.unexpected?, begins]
  | wide wide goesOn =>
    obtain ⟨c, rfl⟩ := Utf8.eq_singleton_of_encode bytes goesOn
    have code := Utf8.wide_of_encodeChar (Utf8.encode_singleton c ▸ bytes) wide
    rw [← bytes, Utf8.decodeLossy_encode]
    simp [strays, Content.unexpected?, opens_wide code]

theorem unexpected_spans {spans : List Span}
    (lexical : ∀ s ∈ spans, Lexeme.Lexical (Utf8.encode s.text) s.content) :
    (spans.map lexeme).filterMap (·.content.unexpected?) =
      (spans.flatMap strays).map String.singleton := by
  induction spans with
  | nil => rfl
  | cons s spans ih =>
    obtain ⟨here, later⟩ := List.forall_mem_cons.mp lexical
    rw [List.flatMap_cons, List.map_append, ← unexpected_toList here, ← ih later, List.map_cons,
      List.filterMap_cons]
    have content : s.lexeme.content = s.content := rfl
    rw [content]
    cases s.content.unexpected? <;> rfl

theorem shown_lexeme (s : Span) : s.lexeme.shown? = s.token? := by
  unfold Lexeme.shown? token?
  cases content : s.content <;> simp [lexeme, content, Utf8.decodeLossy_encode]

theorem payload {s : Span} (lexical : Lexeme.Lexical (Utf8.encode s.text) s.content)
    {contents : String} (string : s.content = .token (.string contents)) :
    s.text = "\"" ++ contents ++ "\"" := by
  have faithful := faithful_of_lexical (t := ⟨.string contents, s.text, 1⟩) (string ▸ lexical)
    (Utf8.decodeLossy_encode s.text).symm
  exact faithful.string contents rfl

def start (spans : List Span) (index : Nat) : String.Pos.Raw :=
  ⟨((spans.take index).flatMap (·.lexeme.bytes)).length⟩

theorem flatMap_bytes (spans : List Span) :
    spans.flatMap (·.lexeme.bytes) = Utf8.encode (String.ofList (spans.flatMap (·.text.toList))) := by
  rw [Utf8.encode_ofList, List.flatMap_assoc]
  simp only [lexeme, Utf8.encode_eq]

theorem start_valid {spans : List Span} {text : String}
    (whole : spans.flatMap (·.text.toList) = text.toList) (index : Nat) :
    (start spans index).IsValid text := by
  rw [String.Pos.Raw.isValid_iff_exists_append]
  refine ⟨String.ofList ((spans.take index).flatMap (·.text.toList)),
    String.ofList ((spans.drop index).flatMap (·.text.toList)), ?_, ?_⟩
  · apply String.toList_injective
    rw [String.toList_append, String.toList_ofList, String.toList_ofList, ← List.flatMap_append,
      List.take_append_drop, whole]
  · rw [start, flatMap_bytes, Utf8.length_encode]
    rfl

end Span

/-- No character of a text is cut apart. The lexemes of a text, from which all its tokens and faults
come, are spans of it that follow each other, so each begins and ends between two characters. Tokens
have the text of their spans, and strings that text without the quotes; no replacement character
comes in. Each character outside strings, comments and tokens with which no lexeme begins is reported
once, by itself and in its turn, and no other is. -/
theorem scan_characters (text : String) :
    ∃ spans : List Span,
      Lexeme.Cut (Utf8.encode text) (spans.map Span.lexeme) ∧
      scan (Utf8.encode text) = itemsFrom 1 (spans.map Span.lexeme) ∧
      spans.flatMap (·.text.toList) = text.toList ∧
      (∀ index, (Span.start spans index).IsValid text) ∧
      (tokensOf (scan (Utf8.encode text))).map Token.unplaced =
        spans.filterMap Span.token? ++ [(.symbol .eof, "")] ∧
      (∀ s ∈ spans, ∀ contents, s.content = .token (.string contents) →
        s.text = "\"" ++ contents ++ "\"") ∧
      (errorsOf (scan (Utf8.encode text))).filterMap Error.unexpected? =
        (spans.flatMap Span.strays).map String.singleton := by
  obtain ⟨spans, same, whole⟩ := (Lexeme.cut_split (Utf8.encode text)).spans rfl
  have lexical : ∀ s ∈ spans, Lexeme.Lexical (Utf8.encode s.text) s.content := by
    intro s mem
    exact split_lexical (Utf8.encode text) s.lexeme (same ▸ List.mem_map_of_mem mem)
  have items : scan (Utf8.encode text) = itemsFrom 1 (spans.map Span.lexeme) := by rw [scan, same]
  refine ⟨spans, Lexeme.cut_iff.mpr same.symm, items, whole, Span.start_valid whole, ?_, ?_, ?_⟩
  · rw [items, unplaced_tokensOf, List.filterMap_map]
    simp only [Function.comp_def, Span.shown_lexeme]
  · exact fun s mem _ string => Span.payload (lexical s mem) string
  · rw [items, unexpected_errorsOf, Span.unexpected_spans lexical]

example : (errorsOf (scan (Utf8.encode "a é \"é\" #"))).map Error.unexpected? =
    [some "é", some "#"] := by
  cbv

end Quill
