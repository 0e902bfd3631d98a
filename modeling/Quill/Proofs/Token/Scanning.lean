import Mathlib.Data.List.ReduceOption
import Quill.Proofs.Lexeme.Cutting
import Quill.Token.Stream

set_option autoImplicit false

namespace Quill

/-- The line of a source that a position is on. -/
def lineAt (source : List UInt8) (position : Nat) : Nat :=
  1 + (source.take position).countP Lexeme.isNewline

/-- Where the lexeme with an index ends, counted in bytes. -/
def reach (lexemes : List Lexeme) (index : Nat) : Nat :=
  ((lexemes.take (index + 1)).flatMap Lexeme.bytes).length

theorem itemsFrom_cons (line : Nat) (l : Lexeme) (rest : List Lexeme) :
    itemsFrom line (l :: rest) =
      (l.item? (line + l.newlines)).toList ++ itemsFrom (line + l.newlines) rest := by
  rw [itemsFrom]
  unfold Lexeme.item?
  cases l.content <;> rfl

theorem itemsFrom_eq (line : Nat) (lexemes : List Lexeme) :
    itemsFrom line lexemes =
      (lexemes.mapIdx fun i l => l.item? (line +
        ((lexemes.take (i + 1)).flatMap Lexeme.bytes).countP Lexeme.isNewline)).reduceOption ++
      [.ok ⟨.symbol .eof, "", line + (lexemes.flatMap Lexeme.bytes).countP Lexeme.isNewline⟩] := by
  induction lexemes generalizing line with
  | nil => rfl
  | cons l rest ih =>
    rw [itemsFrom_cons, ih, List.mapIdx_cons]
    simp only [List.take_succ_cons, List.take_zero, List.flatMap_cons, List.flatMap_nil,
      List.append_nil, List.countP_append, ← Nat.add_assoc, Lexeme.newlines]
    cases l.item? (line + l.bytes.countP Lexeme.isNewline) <;> simp

theorem split_flatMap (source : List UInt8) :
    (Lexeme.split source).flatMap Lexeme.bytes = source := by
  have cut := Lexeme.cut_split source
  generalize Lexeme.split source = lexemes at cut
  induction cut with
  | done => rfl
  | step _ _ ih => rw [List.flatMap_cons, ih]

theorem split_lexical (source : List UInt8) :
    ∀ l ∈ Lexeme.split source, Lexeme.Lexical l.bytes l.content := by
  have cut := Lexeme.cut_split source
  generalize Lexeme.split source = lexemes at cut
  induction cut with
  | done => simp
  | step longest _ ih =>
    intro l mem
    rcases List.mem_cons.mp mem with rfl | mem
    · exact longest.lexical
    · exact ih l mem

theorem take_reach (lexemes : List Lexeme) (index : Nat) :
    (lexemes.flatMap Lexeme.bytes).take (reach lexemes index) =
      (lexemes.take (index + 1)).flatMap Lexeme.bytes := by
  have whole : lexemes.flatMap Lexeme.bytes =
      (lexemes.take (index + 1)).flatMap Lexeme.bytes ++
        (lexemes.drop (index + 1)).flatMap Lexeme.bytes := by
    rw [← List.flatMap_append, List.take_append_drop]
  rw [whole, reach, List.take_left]

theorem scan_eq (source : List UInt8) :
    scan source =
      ((Lexeme.split source).mapIdx fun i l =>
        l.item? (lineAt source (reach (Lexeme.split source) i))).reduceOption ++
      [.ok ⟨.symbol .eof, "", lineAt source source.length⟩] := by
  have line (index : Nat) := take_reach (Lexeme.split source) index
  rw [split_flatMap] at line
  simp only [scan, itemsFrom_eq, lineAt, line, split_flatMap, List.take_length]

theorem mem_items {source : List UInt8} {t : Token}
    (mem : .ok t ∈ ((Lexeme.split source).mapIdx fun i l =>
      l.item? (lineAt source (reach (Lexeme.split source) i))).reduceOption) :
    ∃ bytes, Lexeme.Lexical bytes (.token t.kind) ∧ t.lexeme = Utf8.decodeLossy bytes := by
  rw [List.reduceOption_mem_iff, List.mem_mapIdx] at mem
  obtain ⟨i, bound, shown⟩ := mem
  have lexical := split_lexical source _ (List.getElem_mem bound)
  generalize (Lexeme.split source)[i] = l at shown lexical
  unfold Lexeme.item? at shown
  cases content : l.content with
  | token kind =>
    rw [content] at shown lexical
    cases shown
    exact ⟨l.bytes, lexical, rfl⟩
  | _ => simp [content] at shown

theorem tokensOf_mem {items : List (Except Error Token)} {t : Token} :
    t ∈ tokensOf items ↔ .ok t ∈ items := by
  induction items with
  | nil => simp [tokensOf]
  | cons item items ih => cases item <;> simp [tokensOf, ih]

def IsDigits (text : List Char) : Prop :=
  text ≠ [] ∧ ∀ c ∈ text, c.isDigit

def IsNumeral (text : String) : Prop :=
  IsDigits text.toList ∨
    ∃ whole fraction, IsDigits whole ∧ IsDigits fraction ∧ text.toList = whole ++ '.' :: fraction

theorem Lexeme.Numeral.text {bytes : List UInt8} (h : Lexeme.Numeral bytes) :
    IsNumeral (Utf8.decodeLossy bytes) := by
  unfold IsNumeral
  rw [Utf8.decodeLossy_of_ascii h.ascii, String.toList_ofList]
  have digits {part : List UInt8} (nonempty : part ≠ []) (all : ∀ b ∈ part, Lexeme.isDigit b) :
      IsDigits (part.map Lexeme.char) :=
    ⟨by simpa using nonempty, List.forall_mem_map.mpr all⟩
  cases h with
  | whole nonempty all => exact .inl (digits nonempty all)
  | decimal nonempty all isPoint nonemptyFraction allFraction =>
    refine .inr ⟨_, _, digits nonempty all, digits nonemptyFraction allFraction, ?_⟩
    rw [List.map_append, List.map_cons, isPoint]

theorem decodeLossy_quoted {opening closing : UInt8} (contents : List UInt8)
    (opens : Lexeme.isQuote opening) (closes : Lexeme.isQuote closing) :
    Utf8.decodeLossy (opening :: (contents ++ [closing])) =
      "\"" ++ Utf8.decodeLossy contents ++ "\"" := by
  have first := Utf8.decodeLossy_ascii [] (contents ++ [closing]) (Lexeme.ascii_of_quote opens)
  rw [List.nil_append, Utf8.decodeLossy_ascii contents [] (Lexeme.ascii_of_quote closes),
    Lexeme.char_of_quote opens, Lexeme.char_of_quote closes] at first
  apply String.toList_injective
  rw [first]
  simp [String.toList_append, Utf8.decodeLossy, Utf8.pieces, Utf8.Reader.finish]

/-- What is known of a token by its kind. -/
structure Token.Faithful (t : Token) : Prop where
  string : ∀ text, t.kind = .string text → t.lexeme = "\"" ++ text ++ "\""
  number : ∀ value, t.kind = .number value →
    IsNumeral t.lexeme ∧ Number.read? t.lexeme = some value

theorem faithful_of_lexical {bytes : List UInt8} {t : Token}
    (lexical : Lexeme.Lexical bytes (.token t.kind)) (text : t.lexeme = Utf8.decodeLossy bytes) :
    t.Faithful := by
  generalize same : Content.token t.kind = content at lexical
  cases lexical with
  | symbol | identifier => constructor <;> intro _ kind <;> simp [kind] at same
  | number numeral read =>
    refine ⟨fun _ kind => ?_, fun value kind => ?_⟩
    · simp [kind] at same
    · simp only [kind, Content.token.injEq, Kind.number.injEq] at same
      rw [text, same]
      exact ⟨numeral.text, read⟩
  | string opens between closes =>
    refine ⟨fun _ kind => ?_, fun _ kind => ?_⟩
    · simp only [kind, Content.token.injEq, Kind.string.injEq] at same
      rw [text, same]
      exact decodeLossy_quoted _ opens closes
    · simp [kind] at same
  | _ => cases same

theorem scan_faithful {source : List UInt8} {t : Token} (mem : .ok t ∈ scan source) :
    t.Faithful := by
  rw [scan_eq, List.mem_append, List.mem_singleton] at mem
  rcases mem with mem | ⟨⟨⟩⟩
  · obtain ⟨bytes, lexical, text⟩ := mem_items mem
    exact faithful_of_lexical lexical text
  · constructor <;> intro _ kind <;> cases kind

theorem eof_not_lexical {bytes : List UInt8} :
    ¬Lexeme.Lexical bytes (.token (.symbol .eof)) := by
  intro h
  generalize same : Content.token (.symbol .eof) = content at h
  cases h with
  | symbol spelled =>
    cases same
    cases spelled
  | _ => cases same

namespace TokenStream

def pending (s : TokenStream) : List (Except Error Token) :=
  if s.ended then [] else itemsFrom s.line (Lexeme.split s.rest)

def Orderly (s : TokenStream) : Prop :=
  s.ended = true → s.rest = []

theorem pending_cut {s : TokenStream} (orderly : s.Orderly) {first : UInt8} {rest : List UInt8}
    (more : s.rest = first :: rest) {cut : Lexeme × List UInt8} {left : TokenStream}
    (isCut : cut = Lexeme.next first rest)
    (isLeft : left = { s with rest := cut.2, line := s.line + cut.1.newlines }) :
    s.pending = (cut.1.item? left.line).toList ++ left.pending ∧ left.Orderly := by
  have going : s.ended = false := by
    by_contra ended
    simp [orderly (by simpa using ended)] at more
  subst isCut isLeft
  refine ⟨?_, fun ended => by simp [going] at ended⟩
  simp only [pending, going, more, Lexeme.split, itemsFrom_cons]
  rfl

theorem next_pending (s : TokenStream) (orderly : s.Orderly) :
    s.next.1 = s.pending.head? ∧ s.next.2.pending = s.pending.tail ∧ s.next.2.Orderly := by
  fun_induction next s with
  | case1 s _ ended => simp [pending, ended, orderly]
  | case2 s none ended => simp [pending, ended, none, Lexeme.split, itemsFrom, Orderly]
  | case3 s first rest more cut left item shown =>
    obtain ⟨all, later⟩ := pending_cut orderly more rfl rfl
    rw [show cut.1.item? left.line = some item from shown] at all
    rw [all]
    exact ⟨rfl, rfl, later⟩
  | case4 s first rest more cut left hidden ih =>
    obtain ⟨all, later⟩ := pending_cut orderly more rfl rfl
    rw [show cut.1.item? left.line = none from hidden] at all
    rw [all]
    exact ih later

theorem advance_next (s : TokenStream) (orderly : s.Orderly) (calls : Nat) :
    (s.advance calls).next.1 = s.pending[calls]? := by
  induction calls generalizing s with
  | zero =>
    rw [← List.head?_eq_getElem?]
    exact (next_pending s orderly).1
  | succ calls ih =>
    obtain ⟨_, tail, later⟩ := next_pending s orderly
    rw [← List.getElem?_tail, ← tail]
    exact ih s.next.2 later

end TokenStream

/-- Scanning is longest-match lexing on every source. The lexemes are the one greedy cut of the
source, so they are non-empty and concatenate to it; each token and each fault among them is given
on the line that its last byte is on, and the end of input comes last and only there. The payload
of a string is its lexeme without the quotes, a number is one that its lexeme can be read as, and a
stream over the source gives the same items and then nothing, however often it is asked. -/
theorem scan_longest_match (source : List UInt8) :
    (∀ lexemes, Lexeme.Cut source lexemes ↔ lexemes = Lexeme.split source) ∧
    (Lexeme.split source).flatMap Lexeme.bytes = source ∧
    (∀ l ∈ Lexeme.split source, l.bytes ≠ []) ∧
    scan source =
      ((Lexeme.split source).mapIdx fun i l =>
        l.item? (lineAt source (reach (Lexeme.split source) i))).reduceOption ++
      [.ok ⟨.symbol .eof, "", lineAt source source.length⟩] ∧
    (∀ t, .ok t ∈ (scan source).dropLast → t.kind ≠ .symbol .eof) ∧
    (∀ t, .ok t ∈ scan source → t.Faithful) ∧
    (∀ calls, ((TokenStream.mk source 1 false).advance calls).next.1 = (scan source)[calls]?) := by
  refine ⟨fun _ => Lexeme.cut_iff, split_flatMap source, fun l mem => ?_, scan_eq source,
    fun t mem kind => ?_, fun _ => scan_faithful, fun calls => ?_⟩
  · exact List.length_pos_iff.mp (split_lexical source l mem).pos
  · rw [scan_eq, List.dropLast_concat] at mem
    obtain ⟨bytes, lexical, _⟩ := mem_items mem
    exact eof_not_lexical (kind ▸ lexical)
  · exact TokenStream.advance_next _ (fun ended => by cases ended) calls

end Quill
