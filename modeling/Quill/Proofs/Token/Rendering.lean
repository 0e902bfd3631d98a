import Quill.Proofs.Text.Encoding
import Quill.Proofs.Token.Joining

set_option autoImplicit false

namespace Quill

namespace Lexeme

theorem spelling_blank (s : Symbol) {b : UInt8} (blank : isBlank b) : char b ∉ s.spelling.toList := by
  rcases char_of_blank blank with c | c | c | c <;> rw [c] <;> cases s <;> decide

theorem isWordPart_blank {b : UInt8} (blank : isBlank b) : isWordPart b = false := by
  rcases char_of_blank blank with c | c | c | c <;> simp [isWordPart, isWordStart, isDigit, c]

theorem Numeral.no_blank {bytes : List UInt8} (h : Numeral bytes) : ∀ b ∈ bytes, ¬isBlank b := by
  have digit {b : UInt8} (h : isDigit b) : ¬isBlank b := by
    intro blank
    have part := isWordPart_blank blank
    simp [isWordPart, h] at part
  intro b mem
  cases h with
  | whole _ all => exact digit (all b mem)
  | decimal _ all isPoint _ allFraction =>
    simp only [List.mem_append, List.mem_cons] at mem
    rcases mem with mem | rfl | mem
    · exact digit (all b mem)
    · simp [isBlank, isNewline, isPoint]
    · exact digit (allFraction b mem)

theorem Lexical.not_token_of_blank {front more : List UInt8} {blank : UInt8} {content : Content}
    {kind : Kind} (h : Lexical (front ++ blank :: more) content) (isBlank : isBlank blank)
    (token : Lexical front (.token kind)) : False := by
  obtain ⟨first, front, rfl⟩ := List.exists_cons_of_ne_nil (List.length_pos_iff.mp token.pos)
  have later : blank ∈ front ++ blank :: more := by simp
  have inside : blank ∈ first :: (front ++ blank :: more) := List.mem_cons_of_mem _ later
  rw [List.cons_append] at h
  generalize whole : first :: (front ++ blank :: more) = bytes at h inside
  -- Of each kind of lexeme either no byte is blank, or what stands before the blank already has
  -- another content than a token.
  cases h with
  | @symbol _ _ s spelled =>
    have spells : char blank ∈ s.spelling.toList := spelled ▸ List.mem_map_of_mem inside
    exact spelling_blank s isBlank spells
  | identifier _ goesOn =>
    obtain ⟨rfl, rfl⟩ := List.cons.inj whole
    have part := goesOn _ later
    simp [isWordPart_blank isBlank] at part
  | number numeral => exact numeral.no_blank blank inside isBlank
  | @string opening closing contents opens between closes =>
    obtain ⟨rfl, same⟩ := List.cons.inj whole
    have within : front <+: contents := by
      apply List.prefix_of_prefix_length_le ⟨_, same⟩ (List.prefix_append contents [closing])
      have length := congrArg List.length same
      simp only [List.length_append, List.length_cons, List.length_nil] at length
      omega
    have open' := Lexical.unterminated opens fun b mem => between b (within.subset mem)
    cases token.content_unique open'
  | unterminated opens between =>
    obtain ⟨rfl, rfl⟩ := List.cons.inj whole
    have open' := Lexical.unterminated opens fun b mem => between b (List.mem_append_left _ mem)
    cases token.content_unique open'
  | @comment _ second text slash again within =>
    obtain ⟨rfl, same⟩ := List.cons.inj whole
    cases front with
    | nil =>
      obtain ⟨rfl, -⟩ := List.cons.inj same
      simp [Lexeme.isBlank, isNewline, again] at isBlank
    | cons second' front =>
      obtain ⟨rfl, rfl⟩ := List.cons.inj same
      have hidden := Lexical.comment slash again fun b mem => within b (List.mem_append_left _ mem)
      cases token.content_unique hidden
  | blank | stray =>
    have length := congrArg List.length whole
    simp at length
  | wide _ goesOn =>
    obtain ⟨rfl, rfl⟩ := List.cons.inj whole
    have part := goesOn blank later
    have ascii : ¬0x80 ≤ blank.toNat := by
      rcases char_of_blank isBlank with c | c | c | c <;> rw [char_eq_iff.mp c] <;> decide
    simp [isContinuation, UInt8.le_iff_toNat_le, ascii] at part

def Apart (rest : List UInt8) : Prop :=
  ∀ b ∈ rest.head?, isBlank b

theorem Lexical.longest {bytes rest : List UInt8} {kind : Kind} (token : Lexical bytes (.token kind))
    (apart : Apart rest) : Longest (bytes ++ rest) ⟨bytes, .token kind⟩ := by
  refine ⟨token, List.prefix_append _ _, fun other content lexical front => ?_⟩
  by_contra longer
  obtain ⟨extra, rfl⟩ :=
    List.prefix_of_prefix_length_le (List.prefix_append bytes _) front (by simp at longer; omega)
  obtain ⟨b, extra, rfl⟩ :=
    List.exists_cons_of_ne_nil (l := extra) fun none => by simp [none] at longer
  obtain ⟨after, rfl⟩ := (List.prefix_append_right_inj bytes).mp front
  exact lexical.not_token_of_blank (apart b rfl) token

theorem split_of_longest {bytes rest : List UInt8} {content : Content}
    (longest : Longest (bytes ++ rest) ⟨bytes, content⟩) :
    split (bytes ++ rest) = ⟨bytes, content⟩ :: split rest := by
  let l : Lexeme := ⟨bytes, content⟩
  have cut : Cut (l.bytes ++ rest) (l :: split rest) := .step longest (cut_split rest)
  exact cut.eq_split.symm

theorem split_token {bytes rest : List UInt8} {kind : Kind} (token : Lexical bytes (.token kind))
    (apart : Apart rest) : split (bytes ++ rest) = ⟨bytes, .token kind⟩ :: split rest :=
  split_of_longest (token.longest apart)

end Lexeme

inductive Filler : List UInt8 → Prop where
  | nil : Filler []
  | blank {b : UInt8} {rest : List UInt8} : Lexeme.isBlank b → Filler rest → Filler (b :: rest)
  | comment {first second newline : UInt8} {text rest : List UInt8} : Lexeme.char first = '/' →
      Lexeme.char second = '/' → (∀ b ∈ text, Lexeme.isNewline b = false) →
      Lexeme.isNewline newline → Filler rest →
      Filler (first :: second :: (text ++ newline :: rest))

inductive Separator : List UInt8 → Prop where
  | mk {b : UInt8} {rest : List UInt8} : Lexeme.isBlank b → Filler rest → Separator (b :: rest)

/-- What may stand before the first token and behind the last one. -/
def Margin (bytes : List UInt8) : Prop :=
  bytes = [] ∨ Separator bytes

def Lexeme.Hidden (l : Lexeme) : Prop :=
  l.content = .blank ∨ l.content = .comment

theorem Filler.split {bytes : List UInt8} (filler : Filler bytes) (rest : List UInt8) :
    ∃ hidden : List Lexeme, (∀ l ∈ hidden, l.Hidden) ∧
      Lexeme.split (bytes ++ rest) = hidden ++ Lexeme.split rest := by
  induction filler with
  | nil => exact ⟨[], by simp, rfl⟩
  | @blank b bytes isBlank _ ih =>
    obtain ⟨hidden, all, same⟩ := ih
    refine ⟨⟨[b], .blank⟩ :: hidden, ?_, ?_⟩
    · simpa [Lexeme.Hidden] using all
    · rw [List.cons_append, Lexeme.split, Lexeme.next_blank isBlank, same]
      rfl
  | @comment first second newline text bytes slash again within ends _ ih =>
    obtain ⟨hidden, all, same⟩ := ih
    -- The newline that ends the comment is a blank of its own.
    have isBlank : Lexeme.isBlank newline := by simp [Lexeme.isBlank, ends]
    have line : Lexeme.run (fun b => !Lexeme.isNewline b)
        ((second :: text) ++ newline :: (bytes ++ rest)) =
          (second :: text, newline :: (bytes ++ rest)) := by
      apply Lexeme.run_append
      · intro b mem
        rcases List.mem_cons.mp mem with rfl | mem
        · simp [Lexeme.isNewline, again]
        · simpa using within b mem
      · simpa using ends
    have cut : Lexeme.next first ((second :: text) ++ newline :: (bytes ++ rest)) =
        (⟨first :: second :: text, .comment⟩, newline :: (bytes ++ rest)) := by
      rw [Lexeme.next_slash slash]
      simp only [List.cons_append] at line ⊢
      simp [Lexeme.slash, again, Lexeme.comment, line]
    refine ⟨⟨first :: second :: text, .comment⟩ :: ⟨[newline], .blank⟩ :: hidden, ?_, ?_⟩
    · simpa [Lexeme.Hidden] using all
    · have shape : first :: second :: (text ++ newline :: bytes) ++ rest =
          first :: ((second :: text) ++ newline :: (bytes ++ rest)) := by simp
      rw [shape, Lexeme.split, cut]
      dsimp only
      rw [Lexeme.split, Lexeme.next_blank isBlank, same]
      rfl

theorem Separator.filler {bytes : List UInt8} (h : Separator bytes) : Filler bytes := by
  cases h with
  | mk isBlank filler => exact .blank isBlank filler

theorem Margin.filler {bytes : List UInt8} (h : Margin bytes) : Filler bytes := by
  rcases h with rfl | separator
  · exact .nil
  · exact separator.filler

theorem Separator.apart {bytes : List UInt8} (h : Separator bytes) (rest : List UInt8) :
    Lexeme.Apart (bytes ++ rest) := by
  cases h with
  | mk isBlank _ => simpa [Lexeme.Apart] using isBlank

theorem Margin.apart {bytes : List UInt8} (h : Margin bytes) : Lexeme.Apart bytes := by
  rcases h with rfl | separator
  · simp [Lexeme.Apart]
  · simpa using separator.apart []

theorem Token.lexical_encode {bytes : List UInt8} {kind : Kind}
    (token : Lexeme.Lexical bytes (.token kind)) :
    Lexeme.Lexical (Utf8.encode (Utf8.decodeLossy bytes)) (.token kind) := by
  cases token with
  | @symbol first rest s spelled =>
    rw [Utf8.encode_of_ascii (Lexeme.ascii_of_spelled spelled)]
    exact .symbol spelled
  | identifier starts goesOn noKeyword =>
    rw [Utf8.encode_of_ascii (Lexeme.ascii_of_word starts goesOn)]
    exact .identifier starts goesOn noKeyword
  | number numeral read =>
    rw [Utf8.encode_of_ascii numeral.ascii]
    exact .number numeral read
  | @string opening closing contents opens between closes =>
    have text : Utf8.encode (Utf8.decodeLossy (opening :: (contents ++ [closing]))) =
        opening :: (Utf8.encode (Utf8.decodeLossy contents) ++ [closing]) := by
      have nothing : Utf8.encode (Utf8.decodeLossy []) = [] := Utf8.encode_of_ascii (by simp)
      have front := Utf8.encode_decodeLossy_ascii [] (contents ++ [closing])
        (Lexeme.ascii_of_quote opens)
      rwa [Utf8.encode_decodeLossy_ascii contents [] (Lexeme.ascii_of_quote closes), nothing]
        at front
    -- Ill-formed parts of the contents have become replacement characters, so the bytes differ.
    have between' : ∀ b ∈ Utf8.encode (Utf8.decodeLossy contents), Lexeme.isQuote b = false := by
      intro b mem
      by_contra isQuote
      have quote : Lexeme.isQuote b := by simpa using isQuote
      have inside := Utf8.mem_encode mem (Lexeme.ascii_of_quote quote)
      rw [Lexeme.char_of_quote quote] at inside
      exact Utf8.quote_not_mem_decodeLossy between inside
    have again := Lexeme.Lexical.string opens between' closes
    rw [Utf8.decodeLossy_encode] at again
    rwa [text]

def Token.unplaced (t : Token) : Kind × String :=
  (t.kind, t.lexeme)

def Lexeme.shown? (l : Lexeme) : Option (Kind × String) :=
  match l.content with
  | .token kind => some (kind, Utf8.decodeLossy l.bytes)
  | _ => none

theorem unplaced_tokensOf (line : Nat) (lexemes : List Lexeme) :
    (tokensOf (itemsFrom line lexemes)).map Token.unplaced =
      lexemes.filterMap Lexeme.shown? ++ [(.symbol .eof, "")] := by
  induction lexemes generalizing line with
  | nil => rfl
  | cons l lexemes ih =>
    rw [itemsFrom_cons, tokensOf_append, List.map_append, ih]
    cases content : l.content <;>
      simp [Lexeme.item?, Lexeme.shown?, content, tokensOf, Token.unplaced]

theorem errorsOf_itemsFrom {lexemes : List Lexeme}
    (sound : ∀ l ∈ lexemes, ∀ fault, l.content ≠ .fault fault) (line : Nat) :
    errorsOf (itemsFrom line lexemes) = [] := by
  induction lexemes generalizing line with
  | nil => rfl
  | cons l lexemes ih =>
    rw [itemsFrom_cons, errorsOf_append, ih fun l' mem => sound l' (List.mem_cons_of_mem _ mem)]
    cases content : l.content with
    | fault fault => exact absurd content (sound l List.mem_cons_self fault)
    | _ => simp [Lexeme.item?, content, errorsOf]

/-- A text made of the lexemes of some tokens, with separators between them. -/
inductive Rendered : List Token → List UInt8 → Prop where
  | none {margin : List UInt8} : Margin margin → Rendered [] margin
  | last {t : Token} {margin : List UInt8} :
      Margin margin → Rendered [t] (Utf8.encode t.lexeme ++ margin)
  | more {t next : Token} {ts : List Token} {separator rest : List UInt8} : Separator separator →
      Rendered (next :: ts) rest → Rendered (t :: next :: ts) (Utf8.encode t.lexeme ++ (separator ++ rest))

/-- The lexemes of a text show some tokens, and nothing is wrong with the others. -/
structure Shows (ts : List Token) (lexemes : List Lexeme) : Prop where
  shown : lexemes.filterMap Lexeme.shown? = ts.map Token.unplaced
  sound : ∀ l ∈ lexemes, ∀ fault, l.content ≠ .fault fault

theorem Shows.hidden {ts : List Token} {hidden lexemes : List Lexeme} (h : Shows ts lexemes)
    (all : ∀ l ∈ hidden, l.Hidden) : Shows ts (hidden ++ lexemes) := by
  constructor
  · have none : hidden.filterMap Lexeme.shown? = [] := by
      apply List.filterMap_eq_nil_iff.mpr
      intro l mem
      rcases all l mem with content | content <;> simp [Lexeme.shown?, content]
    rw [List.filterMap_append, none, List.nil_append, h.shown]
  · intro l mem fault
    rcases List.mem_append.mp mem with mem | mem
    · rcases all l mem with content | content <;> simp [content]
    · exact h.sound l mem fault

theorem Shows.token {ts : List Token} {lexemes : List Lexeme} (h : Shows ts lexemes) (t : Token) :
    Shows (t :: ts) (⟨Utf8.encode t.lexeme, .token t.kind⟩ :: lexemes) := by
  constructor
  · rw [List.filterMap_cons, List.map_cons, h.shown]
    simp [Lexeme.shown?, Utf8.decodeLossy_encode, Token.unplaced]
  · intro l mem fault
    rcases List.mem_cons.mp mem with rfl | mem
    · simp
    · exact h.sound l mem fault

theorem Filler.shows {ts : List Token} {filler rest : List UInt8} (h : Filler filler)
    (shows : Shows ts (Lexeme.split rest)) : Shows ts (Lexeme.split (filler ++ rest)) := by
  obtain ⟨hidden, all, same⟩ := h.split rest
  rw [same]
  exact shows.hidden all

theorem Margin.shows {margin : List UInt8} (h : Margin margin) : Shows [] (Lexeme.split margin) := by
  have nothing : Shows [] (Lexeme.split []) := by
    rw [Lexeme.split]
    exact ⟨rfl, by simp⟩
  simpa using h.filler.shows nothing

theorem Rendered.shows {ts : List Token} {text : List UInt8} (rendered : Rendered ts text)
    (lexical : ∀ t ∈ ts, Lexeme.Lexical (Utf8.encode t.lexeme) (.token t.kind)) :
    Shows ts (Lexeme.split text) := by
  induction rendered with
  | none margin => exact margin.shows
  | @last t _ margin =>
    rw [Lexeme.split_token (lexical t List.mem_cons_self) margin.apart]
    exact margin.shows.token t
  | @more t _ _ _ rest separator _ ih =>
    rw [Lexeme.split_token (lexical t List.mem_cons_self) (separator.apart rest)]
    have later := ih fun t' mem => lexical t' (List.mem_cons_of_mem _ mem)
    exact (separator.filler.shows later).token t

theorem scanTokens_lexical {source : List UInt8} {ts : List Token} {last : Token}
    (scanned : scanTokens source = .ok (ts ++ [last])) :
    (∀ t ∈ ts, Lexeme.Lexical (Utf8.encode t.lexeme) (.token t.kind)) ∧
      last.kind = .symbol .eof := by
  obtain ⟨_, same⟩ := scanTokens_ok_iff.mp scanned
  rw [scan_eq, tokensOf_append] at same
  obtain ⟨before, behind⟩ := List.append_inj' same rfl
  constructor
  · intro t mem
    rw [← before] at mem
    obtain ⟨bytes, lexical, text⟩ := mem_items (tokensOf_mem.mp mem)
    rw [text]
    exact Token.lexical_encode lexical
  · cases behind
    rfl

/-- However the lexemes of a source are laid out, with a blank and then any blanks and comments
between two of them, the new text scans to the same tokens, but for their lines. -/
theorem scanTokens_rendered {source : List UInt8} {ts : List Token} {last : Token}
    (scanned : scanTokens source = .ok (ts ++ [last])) {margin text : List UInt8}
    (before : Margin margin) (rendered : Rendered ts text) :
    last.kind = .symbol .eof ∧ ∃ again line,
      scanTokens (margin ++ text) = .ok (again ++ [⟨.symbol .eof, "", line⟩]) ∧
      again.map Token.unplaced = ts.map Token.unplaced := by
  obtain ⟨lexical, eof⟩ := scanTokens_lexical scanned
  have shows : Shows ts (Lexeme.split (margin ++ text)) :=
    before.filler.shows (rendered.shows lexical)
  have clean : errorsOf (scan (margin ++ text)) = [] := errorsOf_itemsFrom shows.sound 1
  obtain ⟨items, line, alone, -⟩ := itemsFrom_append 1 (Lexeme.split (margin ++ text))
  have tokens : tokensOf (scan (margin ++ text)) = tokensOf items ++ [⟨.symbol .eof, "", line⟩] := by
    rw [scan, alone, tokensOf_append]
    rfl
  refine ⟨eof, tokensOf items, line, scanTokens_ok_iff.mpr ⟨clean, tokens⟩, ?_⟩
  have all := unplaced_tokensOf 1 (Lexeme.split (margin ++ text))
  rw [alone, tokensOf_append, List.map_append, shows.shown] at all
  exact (List.append_inj' all rfl).1

def illFormed : List UInt8 :=
  [34, 0xE2, 10, 34, 60, 61, 118, 97, 114]

def illFormedTokens : List Token :=
  [⟨.string "\uFFFD\n", "\"\uFFFD\n\"", 2⟩, ⟨.symbol .lessEqual, "<=", 2⟩,
    ⟨.symbol .varKw, "var", 2⟩]

def relaid : List UInt8 :=
  Utf8.encode "\"\uFFFD\n\"" ++ ([32, 47, 47, 65, 10] ++
    (Utf8.encode "<=" ++ ([9] ++ (Utf8.encode "var" ++ [10, 47, 47, 10]))))

theorem scanTokens_rendered_illFormed :
    scanTokens illFormed = .ok (illFormedTokens ++ [⟨.symbol .eof, "", 2⟩]) ∧
    Margin [32] ∧ Rendered illFormedTokens relaid ∧
    ∃ again line, scanTokens ([32] ++ relaid) = .ok (again ++ [⟨.symbol .eof, "", line⟩]) ∧
      again.map Token.unplaced = illFormedTokens.map Token.unplaced := by
  have scanned : scanTokens illFormed = .ok (illFormedTokens ++ [⟨.symbol .eof, "", 2⟩]) := by cbv
  have before : Margin [32] := .inr (.mk (by decide) .nil)
  have comment {text : List UInt8} (within : ∀ b ∈ text, Lexeme.isNewline b = false) :
      Filler (47 :: 47 :: (text ++ [10])) :=
    .comment (by decide) (by decide) within (by decide) .nil
  have separator : Separator [32, 47, 47, 65, 10] := .mk (by decide) (@comment [65] (by simp; decide))
  have behind : Margin [10, 47, 47, 10] := .inr (.mk (by decide) (@comment [] (by simp)))
  have rendered : Rendered illFormedTokens relaid :=
    .more separator (.more (.mk (by decide) .nil) (.last behind))
  exact ⟨scanned, before, rendered, (scanTokens_rendered scanned before rendered).2⟩

end Quill
