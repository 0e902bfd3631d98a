import Quill.Proofs.Lexeme.Classes

set_option autoImplicit false

namespace Quill.Lexeme

theorem next_punctuation {first : UInt8} {s : Symbol} (h : punctuation? (char first) = some s)
    (rest : List UInt8) : next first rest = symbol first rest s := by
  simp [next, h]

theorem punctuation?_of_operators {c : Char} {both : Symbol × Symbol}
    (h : operators? c = some both) : punctuation? c = none := by
  unfold operators? at h
  split at h <;> first | rfl | cases h

theorem next_operator {first : UInt8} {alone withEqual : Symbol}
    (h : operators? (char first) = some (alone, withEqual)) (rest : List UInt8) :
    next first rest = operator first rest alone withEqual := by
  simp [next, h, punctuation?_of_operators h]

theorem next_slash {first : UInt8} (h : char first = '/') (rest : List UInt8) :
    next first rest = slash first rest := by
  simp [next, h, punctuation?, operators?]

theorem next_blank {first : UInt8} (h : isBlank first) (rest : List UInt8) :
    next first rest = (⟨[first], .blank⟩, rest) := by
  rcases char_of_blank h with c | c | c | c <;> simp [next, h, c, punctuation?, operators?]

theorem next_quote {first : UInt8} (h : isQuote first) (rest : List UInt8) :
    next first rest = string first rest := by
  have c : char first = '"' := by simpa [isQuote] using h
  simp [next, isBlank, isNewline, h, c, punctuation?, operators?]

theorem no_mark {c : Char} (h : c.isAlpha ∨ c.isDigit ∨ c = '_') :
    punctuation? c = none ∧ operators? c = none ∧ c ≠ '/' ∧ c ≠ ' ' ∧ c ≠ '\r' ∧ c ≠ '\t' ∧
      c ≠ '\n' ∧ c ≠ '"' := by
  refine ⟨?_, ?_, ?_⟩
  · unfold punctuation?
    split <;> first | rfl | exact absurd h (by decide)
  · unfold operators?
    split <;> first | rfl | exact absurd h (by decide)
  · refine ⟨?_, ?_, ?_, ?_, ?_, ?_⟩ <;> rintro rfl <;> exact absurd h (by decide)

theorem next_digit {first : UInt8} (h : isDigit first) (rest : List UInt8) :
    next first rest = number first rest := by
  have none := no_mark (c := char first) (.inr (.inl h))
  simp [next, isBlank, isNewline, isQuote, h, none]

theorem next_wordStart {first : UInt8} (h : isWordStart first) (rest : List UInt8) :
    next first rest = word first rest := by
  have letter : (char first).isAlpha ∨ char first = '_' := by simpa [isWordStart] using h
  have none := no_mark (letter.imp_right .inr)
  have noDigit : ¬isDigit first := by
    rw [isWordStart_iff] at h
    rw [isDigit_iff]
    omega
  simp [next, isBlank, isNewline, isQuote, h, none, noDigit]

theorem next_unexpected {first : UInt8}
    (noSymbol : ∀ s : Symbol, s.spelling.toList.head? ≠ some (char first))
    (noBlank : isBlank first = false) (noString : isQuote first = false)
    (noNumber : isDigit first = false) (noWord : isWordStart first = false) (rest : List UInt8) :
    next first rest = unexpected first rest := by
  have noPunctuation : punctuation? (char first) = none :=
    Option.eq_none_iff_forall_ne_some.mpr fun s h =>
      noSymbol s (by rw [spelling_of_punctuation h]; rfl)
  have noOperator : operators? (char first) = none :=
    Option.eq_none_iff_forall_ne_some.mpr fun both h =>
      noSymbol both.1 (by rw [(spelling_of_operators h).1]; rfl)
  have noSlash : char first ≠ '/' := fun h => noSymbol .slash (by rw [h]; rfl)
  simp [next, noPunctuation, noOperator, noSlash, noBlank, noString, noNumber, noWord]

theorem next_wide {first : UInt8} (wide : 0x80 ≤ first) (rest : List UInt8) :
    next first rest = unexpected first rest := by
  have noAscii : ¬first < 0x80 := UInt8.not_lt.mpr wide
  have noChar {c : Char} (small : c.toNat < 0x80) : char first ≠ c :=
    fun h => noAscii (ascii_of_char h small)
  apply next_unexpected
  · intro s h
    exact noChar (spelling_ascii s _ (List.mem_of_mem_head? h)) rfl
  · rw [← Bool.not_eq_true]
    intro h
    rcases char_of_blank h with h | h | h | h <;> exact noChar (by decide) h
  · simpa [isQuote] using noChar (by decide)
  · simpa using mt ascii_of_digit noAscii
  · simpa using mt ascii_of_wordStart noAscii

structure Heads (cut : Lexeme × List UInt8) (source : List UInt8) : Prop where
  lexical : Lexical cut.1.bytes cut.1.content
  append : cut.1.bytes ++ cut.2 = source

theorem heads_symbol {first : UInt8} {s : Symbol} (spelled : s.spelling.toList = [char first])
    (rest : List UInt8) : Heads (symbol first rest s) (first :: rest) :=
  ⟨.symbol (by rw [spelled]; rfl), rfl⟩

theorem heads_operator {first : UInt8} {alone withEqual : Symbol}
    (h : operators? (char first) = some (alone, withEqual)) (rest : List UInt8) :
    Heads (operator first rest alone withEqual) (first :: rest) := by
  obtain ⟨spelledAlone, spelledBoth⟩ := spelling_of_operators h
  unfold operator
  split
  next => exact heads_symbol spelledAlone _
  next second after =>
    split
    next equal =>
      refine ⟨.symbol ?_, rfl⟩
      rw [spelledBoth, List.map_cons, List.map_cons, beq_iff_eq.mp equal]
      rfl
    next => exact heads_symbol spelledAlone _

theorem heads_slash {first : UInt8} (h : char first = '/') (rest : List UInt8) :
    Heads (slash first rest) (first :: rest) := by
  have alone : Symbol.slash.spelling.toList = [char first] := by rw [h]; rfl
  unfold slash
  split
  next => exact heads_symbol alone _
  next second after =>
    split
    next again =>
      have again : char second = '/' := beq_iff_eq.mp again
      have inLine : isNewline second = false := by simp [isNewline, again]
      have cut : comment first (second :: after) =
          (⟨first :: second :: after.takeWhile (fun b => !isNewline b), .comment⟩,
            after.dropWhile (fun b => !isNewline b)) := by
        simp [comment, run, inLine]
      rw [cut]
      refine ⟨.comment h again fun b mem => ?_, ?_⟩
      · simpa using List.mem_takeWhile_imp mem
      · simp
    next => exact heads_symbol alone _

theorem heads_string {first : UInt8} (h : isQuote first) (rest : List UInt8) :
    Heads (string first rest) (first :: rest) := by
  have between : ∀ b ∈ rest.takeWhile (fun b => !isQuote b), isQuote b = false :=
    fun b mem => by simpa using List.mem_takeWhile_imp mem
  have whole := List.takeWhile_append_dropWhile (p := fun b => !isQuote b) (l := rest)
  unfold string run
  split
  next contents same =>
    rw [Prod.mk.injEq] at same
    rw [same.1, same.2, List.append_nil] at whole
    exact ⟨.unterminated h (same.1 ▸ between), by rw [whole, List.append_nil]⟩
  next contents quote after same =>
    rw [Prod.mk.injEq] at same
    rw [same.1, same.2] at whole
    -- what stopped the run is a quote
    have stop := List.head?_dropWhile_not (fun b => !isQuote b) rest
    rw [same.2] at stop
    refine ⟨.string h (same.1 ▸ between) (by simpa using stop), ?_⟩
    simp [← whole]

theorem fraction_append (bytes : List UInt8) :
    (fraction bytes).1 ++ (fraction bytes).2 = bytes := by
  unfold fraction
  split
  next => rfl
  next => rfl
  next =>
    split
    next => simp [run]
    next => rfl

theorem numeral_fraction {whole : List UInt8} (nonempty : whole ≠ []) (all : ∀ b ∈ whole, isDigit b)
    (bytes : List UInt8) : Numeral (whole ++ (fraction bytes).1) := by
  unfold fraction
  split
  next => simpa using Numeral.whole nonempty all
  next => simpa using Numeral.whole nonempty all
  next point first rest =>
    split
    next both =>
      simp only [Bool.and_eq_true, beq_iff_eq] at both
      refine .decimal nonempty all both.1 (by simp) fun b mem => ?_
      rcases List.mem_cons.mp mem with rfl | mem
      · exact both.2
      · exact List.mem_takeWhile_imp mem
    next => simpa using Numeral.whole nonempty all

theorem heads_number {first : UInt8} (h : isDigit first) (rest : List UInt8) :
    Heads (number first rest) (first :: rest) := by
  have all : ∀ b ∈ first :: rest.takeWhile isDigit, isDigit b := by
    intro b mem
    rcases List.mem_cons.mp mem with rfl | mem
    · exact h
    · exact List.mem_takeWhile_imp mem
  have numeral := numeral_fraction (List.cons_ne_nil _ _) all (rest.dropWhile isDigit)
  obtain ⟨value, read⟩ := numeral.readable
  have cut : number first rest =
      (⟨first :: rest.takeWhile isDigit ++ (fraction (rest.dropWhile isDigit)).1,
        .token (.number value)⟩, (fraction (rest.dropWhile isDigit)).2) := by
    simp only [number, run, read, Option.getD_some]
  rw [cut]
  refine ⟨.number numeral read, ?_⟩
  simp [fraction_append]

theorem ofWord_cases (text : String) :
    (Symbol.ofWord text ∈ Symbol.keywords ∧ (Symbol.ofWord text).spelling = text) ∨
      (Symbol.ofWord text = .identifier ∧ ∀ s ∈ Symbol.keywords, s.spelling ≠ text) := by
  unfold Symbol.ofWord
  cases found : Symbol.keywords.find? (·.spelling == text) with
  | none =>
    rw [List.find?_eq_none] at found
    exact .inr ⟨rfl, by simpa using found⟩
  | some s =>
    refine .inl ⟨List.mem_of_find?_eq_some found, ?_⟩
    simpa using List.find?_some found

theorem heads_word {first : UInt8} (h : isWordStart first) (rest : List UInt8) :
    Heads (word first rest) (first :: rest) := by
  have parts : ∀ b ∈ rest.takeWhile isWordPart, isWordPart b := fun b => List.mem_takeWhile_imp
  have text := Utf8.decodeLossy_of_ascii (ascii_of_word h parts)
  unfold word run
  refine ⟨?_, by simp⟩
  simp only [text]
  rcases ofWord_cases (String.ofList ((first :: rest.takeWhile isWordPart).map char)) with
    ⟨_, spelled⟩ | ⟨plain, others⟩
  · exact .symbol (by rw [spelled, String.toList_ofList])
  · rw [plain]
    refine .identifier h parts fun s mem same => others s mem ?_
    rw [same, String.ofList_toList]

theorem heads_unexpected {first : UInt8}
    (noSymbol : ∀ s : Symbol, s.spelling.toList.head? ≠ some (char first))
    (noBlank : isBlank first = false) (noString : isQuote first = false)
    (noNumber : isDigit first = false) (noWord : isWordStart first = false) (rest : List UInt8) :
    Heads (unexpected first rest) (first :: rest) := by
  unfold unexpected
  by_cases ascii : first < 0x80
  · simp only [ascii, if_true, Utf8.decodeLossy_singleton ascii]
    exact ⟨.stray ascii noSymbol noBlank noString noNumber noWord, rfl⟩
  · simp only [ascii, if_false, run]
    exact ⟨.wide (UInt8.not_lt.mp ascii) fun b => List.mem_takeWhile_imp, by simp⟩

theorem no_symbol {first : UInt8} (noPunctuation : punctuation? (char first) = none)
    (noOperator : operators? (char first) = none) (noSlash : char first ≠ '/')
    (noWord : isWordStart first = false) (s : Symbol) :
    s.spelling.toList.head? ≠ some (char first) := by
  intro head
  have spelled : s.spelling.toList ≠ [] := fun none => by
    rw [none] at head
    cases head
  rcases spelling_cases s spelled with ⟨c, h, mark⟩ | ⟨c, _, h, mark⟩ | ⟨c, _, h, mark⟩ | rfl | mem
  · rw [h] at head
    cases head
    simp [noPunctuation] at mark
  · rw [h] at head
    cases head
    simp [noOperator] at mark
  · rw [h] at head
    cases head
    simp [noOperator] at mark
  · exact noSlash (Option.some.inj head).symm
  · have letter := keyword_letters s mem _ (List.mem_of_mem_head? head)
    simp [isWordStart, letter] at noWord

theorem heads_next (first : UInt8) (rest : List UInt8) :
    Heads (next first rest) (first :: rest) := by
  unfold next
  split
  next s mark => exact heads_symbol (spelling_of_punctuation mark) rest
  next alone withEqual _ mark => exact heads_operator mark rest
  next noPunctuation noOperator =>
    by_cases slash : char first = '/'
    · simpa [slash] using heads_slash slash rest
    by_cases blank : isBlank first
    · simp only [slash, blank, beq_iff_eq, if_true, if_false]
      exact ⟨.blank blank, rfl⟩
    by_cases quote : isQuote first
    · simpa [slash, blank, quote] using heads_string quote rest
    by_cases digit : isDigit first
    · simpa [slash, blank, quote, digit] using heads_number digit rest
    by_cases start : isWordStart first
    · simpa [slash, blank, quote, digit, start] using heads_word start rest
    simp only [Bool.not_eq_true] at blank quote digit start
    have noSymbol := no_symbol noPunctuation noOperator slash start
    simpa [slash, blank, quote, digit, start] using
      heads_unexpected noSymbol blank quote digit start rest

theorem length_le_run {p : UInt8 → Bool} {part rest : List UInt8} (all : ∀ b ∈ part, p b)
    (front : part <+: rest) : part.length ≤ (run p rest).1.length := by
  obtain ⟨after, rfl⟩ := front
  rw [run, List.takeWhile_append_of_pos all, List.length_append]
  omega

theorem run_append {p : UInt8 → Bool} {part rest : List UInt8} (all : ∀ b ∈ part, p b)
    (stop : ∀ b ∈ rest.head?, p b = false) : run p (part ++ rest) = (part, rest) := by
  rw [run, List.takeWhile_append_of_pos all, List.dropWhile_append_of_pos all]
  cases rest with
  | nil => simp
  | cons b rest => simp [stop b rfl]

theorem length_le_fraction {point : UInt8} {part bytes : List UInt8} (isPoint : char point = '.')
    (nonempty : part ≠ []) (all : ∀ b ∈ part, isDigit b) (front : point :: part <+: bytes) :
    (point :: part).length ≤ (fraction bytes).1.length := by
  obtain ⟨after, rfl⟩ := front
  obtain ⟨first, part, rfl⟩ := List.exists_cons_of_ne_nil nonempty
  have digit : isDigit first := all first List.mem_cons_self
  have more := length_le_run (fun b mem => all b (List.mem_cons_of_mem _ mem))
    (List.prefix_append part after)
  simpa [fraction, isPoint, digit] using more

theorem Numeral.isDigit_head {first : UInt8} {tail : List UInt8} (h : Numeral (first :: tail)) :
    isDigit first := by
  generalize same : first :: tail = bytes at h
  cases h with
  | whole _ all => exact all first (same ▸ List.mem_cons_self)
  | @decimal whole _ _ nonempty all =>
    obtain ⟨head, whole, rfl⟩ := List.exists_cons_of_ne_nil nonempty
    cases same
    exact all first List.mem_cons_self

theorem length_le_number {first : UInt8} {tail rest : List UInt8}
    (numeral : Numeral (first :: tail)) (front : tail <+: rest) :
    (first :: tail).length ≤ (number first rest).1.bytes.length := by
  simp only [number, List.length_append, List.length_cons]
  generalize same : first :: tail = bytes at numeral
  cases numeral with
  | whole _ all =>
    subst same
    have := length_le_run (fun b mem => all b (List.mem_cons_of_mem _ mem)) front
    omega
  | @decimal whole point digits nonempty all isPoint nonemptyDigits allDigits =>
    obtain ⟨head, whole, rfl⟩ := List.exists_cons_of_ne_nil nonempty
    obtain ⟨rfl, rfl⟩ := List.cons.inj (same.trans List.cons_append)
    obtain ⟨after, rfl⟩ := front
    -- the run of digits before the point is the whole part, so the fraction starts at the point
    have span : run isDigit (whole ++ (point :: digits ++ after)) =
        (whole, point :: digits ++ after) :=
      run_append (fun b mem => all b (List.mem_cons_of_mem _ mem)) (by simp [isDigit, isPoint])
    have fits := length_le_fraction isPoint nonemptyDigits allDigits
      (List.prefix_append (point :: digits) after)
    rw [List.append_assoc, span, List.length_append]
    simp only at fits ⊢
    omega

theorem string_closed {first closing : UInt8} {contents : List UInt8} (after : List UInt8)
    (between : ∀ b ∈ contents, isQuote b = false) (closes : isQuote closing) :
    string first (contents ++ closing :: after) =
      (⟨first :: contents ++ [closing], .token (.string (Utf8.decodeLossy contents))⟩, after) := by
  have span : run (fun b => !isQuote b) (contents ++ closing :: after) =
      (contents, closing :: after) :=
    run_append (by simpa using between) (by simpa using closes)
  simp only [string, span]

theorem length_le_unterminated {first : UInt8} {contents rest : List UInt8}
    (between : ∀ b ∈ contents, isQuote b = false) (front : contents <+: rest) :
    (first :: contents).length ≤ (string first rest).1.bytes.length := by
  have fits := length_le_run (p := fun b => !isQuote b) (by simpa using between) front
  unfold string
  split
  next same => simpa [same] using fits
  next same =>
    rw [same] at fits
    simp only [List.length_cons, List.length_append] at fits ⊢
    omega

theorem length_le_comment {first second : UInt8} {text rest : List UInt8}
    (again : char second = '/') (within : ∀ b ∈ text, isNewline b = false)
    (front : second :: text <+: rest) :
    (first :: second :: text).length ≤ (slash first rest).1.bytes.length := by
  have all : ∀ b ∈ second :: text, (!isNewline b) = true := by
    intro b mem
    rcases List.mem_cons.mp mem with rfl | mem
    · simp [isNewline, again]
    · simpa using within b mem
  have fits := length_le_run (p := fun b => !isNewline b) all front
  obtain ⟨after, rfl⟩ := front
  simpa [slash, again, comment] using fits

theorem keyword_word {first : UInt8} {rest : List UInt8} {s : Symbol} (mem : s ∈ Symbol.keywords)
    (spelled : (first :: rest).map char = s.spelling.toList) :
    isWordStart first ∧ ∀ b ∈ rest, isWordPart b := by
  have letter : ∀ b ∈ first :: rest, isWordStart b := by
    intro b mem'
    have := keyword_letters s mem (char b) (spelled ▸ List.mem_map_of_mem mem')
    simp [isWordStart, this]
  refine ⟨letter first List.mem_cons_self, fun b mem' => ?_⟩
  simp [isWordPart, letter b (List.mem_cons_of_mem _ mem')]

theorem Lexical.pos {bytes : List UInt8} {content : Content} (h : Lexical bytes content) :
    0 < bytes.length := by
  cases h with
  | number numeral =>
    cases numeral with
    | whole nonempty _ => exact List.length_pos_iff.mpr nonempty
    | decimal =>
      rw [List.length_append]
      exact Nat.add_pos_right _ (List.length_pos_iff.mpr (List.cons_ne_nil _ _))
  | _ => simp

theorem length_le_symbol {first : UInt8} {tail rest : List UInt8} {s : Symbol}
    (spelled : (first :: tail).map char = s.spelling.toList) (front : tail <+: rest) :
    (first :: tail).length ≤ (next first rest).1.bytes.length := by
  by_cases alone : tail = []
  · subst alone
    exact (heads_next first rest).lexical.pos
  rcases spelling_cases s (spelled ▸ by simp) with
    ⟨c, h, _⟩ | ⟨c, _, h, _⟩ | ⟨c, _, h, mark⟩ | rfl | mem
  · simp [h, alone] at spelled
  · simp [h, alone] at spelled
  · rw [h] at spelled
    obtain ⟨second, rfl⟩ : ∃ second, tail = [second] :=
      List.length_eq_one_iff.mp (by simpa using congrArg (List.length ∘ List.tail) spelled)
    obtain ⟨after, rfl⟩ := front
    simp only [List.map_cons, List.map_nil, List.cons.injEq, and_true] at spelled
    obtain ⟨rfl, equal⟩ := spelled
    simp [next_operator mark, operator, equal]
  · simp [Symbol.spelling, alone] at spelled
  · obtain ⟨starts, goesOn⟩ := keyword_word mem spelled
    rw [next_wordStart starts]
    simpa [word] using length_le_run goesOn front

theorem Lexical.length_le_next {first : UInt8} {tail rest : List UInt8} {content : Content}
    (h : Lexical (first :: tail) content) (front : tail <+: rest) :
    (first :: tail).length ≤ (next first rest).1.bytes.length := by
  cases h with
  | symbol spelled => exact length_le_symbol spelled front
  | identifier starts goesOn =>
    rw [next_wordStart starts]
    simpa [word] using length_le_run goesOn front
  | number numeral =>
    rw [next_digit numeral.isDigit_head]
    exact length_le_number numeral front
  | string opens between closes =>
    obtain ⟨after, rfl⟩ := front
    simp [next_quote opens, string_closed after between closes]
  | unterminated opens between =>
    rw [next_quote opens]
    exact length_le_unterminated between front
  | comment slash again within =>
    rw [next_slash slash]
    exact length_le_comment again within front
  | blank | stray => exact (heads_next first rest).lexical.pos
  | wide wide goesOn =>
    rw [next_wide wide]
    simpa [unexpected, UInt8.not_lt.mpr wide] using length_le_run goesOn front

theorem Lexical.bytes_next {first : UInt8} {tail : List UInt8} {content : Content}
    (h : Lexical (first :: tail) content) : (next first tail).1.bytes = first :: tail := by
  have whole := (heads_next first tail).append
  have long := h.length_le_next List.prefix_rfl
  have front : (next first tail).1.bytes <+: first :: tail := ⟨_, whole⟩
  exact front.eq_of_length_le long

theorem ofWord_keyword {bytes : List UInt8} {s : Symbol} (mem : s ∈ Symbol.keywords)
    (spelled : bytes.map char = s.spelling.toList) :
    Symbol.ofWord (Utf8.decodeLossy bytes) = s := by
  rw [Utf8.decodeLossy_of_ascii (ascii_of_spelled spelled), spelled, String.ofList_toList]
  exact ofWord_spelling s mem

theorem ofWord_identifier {bytes : List UInt8} (ascii : ∀ b ∈ bytes, b < 0x80)
    (noKeyword : ∀ s ∈ Symbol.keywords, bytes.map char ≠ s.spelling.toList) :
    Symbol.ofWord (Utf8.decodeLossy bytes) = .identifier := by
  rw [Utf8.decodeLossy_of_ascii ascii]
  rcases ofWord_cases (String.ofList (bytes.map char)) with ⟨mem, spelled⟩ | ⟨plain, _⟩
  · refine absurd ?_ (noKeyword _ mem)
    rw [spelled, String.toList_ofList]
  · exact plain

theorem content_next_symbol {first : UInt8} {tail : List UInt8} {s : Symbol}
    (spelled : (first :: tail).map char = s.spelling.toList) :
    (next first tail).1.content = .token (.symbol s) := by
  rcases spelling_cases s (spelled ▸ by simp) with
    ⟨c, h, mark⟩ | ⟨c, _, h, mark⟩ | ⟨c, _, h, mark⟩ | rfl | mem
  · simp only [h, List.map_cons, List.cons.injEq, List.map_eq_nil_iff] at spelled
    obtain ⟨rfl, rfl⟩ := spelled
    rw [next_punctuation mark]
    rfl
  · simp only [h, List.map_cons, List.cons.injEq, List.map_eq_nil_iff] at spelled
    obtain ⟨rfl, rfl⟩ := spelled
    rw [next_operator mark]
    rfl
  · rw [h] at spelled
    obtain ⟨second, rfl⟩ : ∃ second, tail = [second] :=
      List.length_eq_one_iff.mp (by simpa using congrArg (List.length ∘ List.tail) spelled)
    simp only [List.map_cons, List.map_nil, List.cons.injEq, and_true] at spelled
    obtain ⟨rfl, equal⟩ := spelled
    simp [next_operator mark, operator, equal]
  · change _ = ['/'] at spelled
    simp only [List.map_cons, List.cons.injEq, List.map_eq_nil_iff] at spelled
    obtain ⟨slash, rfl⟩ := spelled
    rw [next_slash slash]
    rfl
  · have whole := (Lexical.symbol spelled).bytes_next
    rw [next_wordStart (keyword_word mem spelled).1] at whole ⊢
    change Content.token (.symbol (.ofWord (Utf8.decodeLossy (word first tail).1.bytes))) = _
    rw [whole, ofWord_keyword mem spelled]

theorem Lexical.content_next {first : UInt8} {tail : List UInt8} {content : Content}
    (h : Lexical (first :: tail) content) : (next first tail).1.content = content := by
  -- The scanner cuts off all of it, so it reads its content from the same bytes.
  have whole := h.bytes_next
  cases h with
  | symbol spelled => exact content_next_symbol spelled
  | identifier starts goesOn noKeyword =>
    rw [next_wordStart starts] at whole ⊢
    change Content.token (.symbol (.ofWord (Utf8.decodeLossy (word first tail).1.bytes))) = _
    rw [whole, ofWord_identifier (ascii_of_word starts goesOn) noKeyword]
  | @number _ value numeral read =>
    rw [next_digit numeral.isDigit_head] at whole ⊢
    change Content.token (.number ((Number.read? (Utf8.decodeLossy
      (Lexeme.number first tail).1.bytes)).getD 0)) = _
    rw [whole, read]
    rfl
  | string opens between closes => rw [next_quote opens, string_closed [] between closes]
  | unterminated opens between =>
    have span : run (fun b => !isQuote b) (tail ++ []) = (tail, []) :=
      run_append (by simpa using between) (by simp)
    rw [List.append_nil] at span
    simp only [next_quote opens, Lexeme.string, span]
  | comment slash again within => simp [next_slash slash, Lexeme.slash, again, Lexeme.comment]
  | blank blank => rw [next_blank blank]
  | stray ascii noSymbol noBlank noString noNumber noWord =>
    rw [next_unexpected noSymbol noBlank noString noNumber noWord]
    simp only [unexpected, ascii, if_true, Utf8.decodeLossy_singleton ascii]
  | wide wide goesOn =>
    rw [next_wide wide] at whole ⊢
    change Content.fault (.unexpected (Utf8.decodeLossy (unexpected first tail).1.bytes)) = _
    rw [whole]

theorem Lexical.content_unique {bytes : List UInt8} {content content' : Content}
    (h : Lexical bytes content) (h' : Lexical bytes content') : content = content' := by
  obtain ⟨first, tail, rfl⟩ := List.exists_cons_of_ne_nil (List.length_pos_iff.mp h.pos)
  rw [← h.content_next, ← h'.content_next]

structure Longest (source : List UInt8) (l : Lexeme) : Prop where
  lexical : Lexical l.bytes l.content
  front : l.bytes <+: source
  longest : ∀ bytes content, Lexical bytes content → bytes <+: source →
    bytes.length ≤ l.bytes.length

theorem Longest.unique {source : List UInt8} {l l' : Lexeme} (h : Longest source l)
    (h' : Longest source l') : l = l' := by
  have same : l.bytes = l'.bytes := by
    have le := h'.longest _ _ h.lexical h.front
    have ge := h.longest _ _ h'.lexical h'.front
    exact (List.prefix_of_prefix_length_le h.front h'.front le).eq_of_length_le ge
  have content := h.lexical.content_unique (same ▸ h'.lexical)
  cases l
  cases l'
  simp_all

theorem longest_next (first : UInt8) (rest : List UInt8) :
    Longest (first :: rest) (next first rest).1 := by
  have heads := heads_next first rest
  refine ⟨heads.lexical, ⟨_, heads.append⟩, fun bytes content lexical front => ?_⟩
  obtain ⟨b, tail, rfl⟩ := List.exists_cons_of_ne_nil (List.length_pos_iff.mp lexical.pos)
  obtain ⟨rfl, inner⟩ := List.cons_prefix_cons.mp front
  exact lexical.length_le_next inner

/-- The greedy cut of a source: lexemes that concatenate to it, each the longest where it
starts. -/
inductive Cut : List UInt8 → List Lexeme → Prop where
  | done : Cut [] []
  | step {l : Lexeme} {rest : List UInt8} {more : List Lexeme}
    (longest : Longest (l.bytes ++ rest) l) (goesOn : Cut rest more) :
    Cut (l.bytes ++ rest) (l :: more)

theorem cut_split (source : List UInt8) : Cut source (split source) := by
  induction source using split.induct with
  | case1 =>
    rw [split]
    exact .done
  | case2 first rest cut ih =>
    rw [split]
    have heads := (heads_next first rest).append
    rw [← heads]
    refine .step ?_ ih
    rw [heads]
    exact longest_next first rest

theorem Cut.eq_split {source : List UInt8} {lexemes : List Lexeme} (h : Cut source lexemes) :
    lexemes = split source := by
  induction h with
  | done => rw [split]
  | @step l rest more longest _ ih =>
    obtain ⟨first, tail, whole⟩ := List.exists_cons_of_ne_nil
      (l := l.bytes ++ rest) fun none => by
        have := longest.lexical.pos
        simp_all
    rw [whole] at longest ⊢
    have same := longest.unique (longest_next first tail)
    have after : rest = (next first tail).2 := by
      have := (heads_next first tail).append
      rw [← whole, ← same] at this
      exact (List.append_cancel_left this).symm
    rw [split, ← same, ih, after]

theorem cut_iff {source : List UInt8} {lexemes : List Lexeme} :
    Cut source lexemes ↔ lexemes = split source :=
  ⟨Cut.eq_split, fun same => same ▸ cut_split source⟩

end Quill.Lexeme
