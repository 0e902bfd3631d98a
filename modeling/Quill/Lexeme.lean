import Quill.Error
import Quill.Number.Reader

set_option autoImplicit false

namespace Quill

inductive Content where
  | token (kind : Kind)
  | fault (fault : LexicalFault)
  | blank
  | comment

structure Lexeme where
  bytes : List UInt8
  content : Content

namespace Lexeme

/-- The character a byte is the code of; above ASCII it is none that starts a lexeme. -/
def char (b : UInt8) : Char :=
  Char.ofNat b.toNat

def isDigit (b : UInt8) : Bool :=
  (char b).isDigit

def isWordStart (b : UInt8) : Bool :=
  (char b).isAlpha || char b == '_'

def isWordPart (b : UInt8) : Bool :=
  isWordStart b || isDigit b

def isContinuation (b : UInt8) : Bool :=
  0x80 ≤ b && b < 0xC0

def isNewline (b : UInt8) : Bool :=
  char b == '\n'

def isQuote (b : UInt8) : Bool :=
  char b == '"'

def run (p : UInt8 → Bool) (bytes : List UInt8) : List UInt8 × List UInt8 :=
  (bytes.takeWhile p, bytes.dropWhile p)

/-- The digits after a point; a point without a digit is not part of a number. -/
def fraction : List UInt8 → List UInt8 × List UInt8
  | [] => ([], [])
  | [b] => ([], [b])
  | point :: first :: rest =>
    if char point == '.' && isDigit first then
      let (digits, after) := run isDigit rest
      (point :: first :: digits, after)
    else ([], point :: first :: rest)

def number (first : UInt8) (rest : List UInt8) : Lexeme × List UInt8 :=
  let (whole, afterWhole) := run isDigit rest
  let (part, after) := fraction afterWhole
  let bytes := first :: whole ++ part
  (⟨bytes, .token (.number ((Number.read? (Utf8.decodeLossy bytes)).getD 0))⟩, after)

def word (first : UInt8) (rest : List UInt8) : Lexeme × List UInt8 :=
  let (part, after) := run isWordPart rest
  let bytes := first :: part
  (⟨bytes, .token (.symbol (.ofWord (Utf8.decodeLossy bytes)))⟩, after)

/-- A string reaches to the next quote, over line ends too. -/
def string (first : UInt8) (rest : List UInt8) : Lexeme × List UInt8 :=
  match run (fun b => !isQuote b) rest with
  | (contents, []) => (⟨first :: contents, .fault .unterminatedString⟩, [])
  | (contents, quote :: after) =>
    (⟨first :: contents ++ [quote], .token (.string (Utf8.decodeLossy contents))⟩, after)

def comment (first : UInt8) (rest : List UInt8) : Lexeme × List UInt8 :=
  let (text, after) := run (fun b => !isNewline b) rest
  (⟨first :: text, .comment⟩, after)

def symbol (first : UInt8) (rest : List UInt8) (s : Symbol) : Lexeme × List UInt8 :=
  (⟨[first], .token (.symbol s)⟩, rest)

def operator (first : UInt8) (rest : List UInt8) (alone withEqual : Symbol) :
    Lexeme × List UInt8 :=
  match rest with
  | [] => symbol first rest alone
  | second :: after =>
    if char second == '=' then (⟨[first, second], .token (.symbol withEqual)⟩, after)
    else symbol first rest alone

def slash (first : UInt8) (rest : List UInt8) : Lexeme × List UInt8 :=
  match rest with
  | [] => symbol first rest .slash
  | second :: _ =>
    if char second == '/' then comment first rest else symbol first rest .slash

/-- A character that starts no lexeme, with all bytes that continue it. -/
def unexpected (first : UInt8) (rest : List UInt8) : Lexeme × List UInt8 :=
  let (part, after) := if first < 0x80 then ([], rest) else run isContinuation rest
  let bytes := first :: part
  (⟨bytes, .fault (.unexpected (Utf8.decodeLossy bytes))⟩, after)

def punctuation? : Char → Option Symbol
  | '(' => some .leftParen
  | ')' => some .rightParen
  | '{' => some .leftBrace
  | '}' => some .rightBrace
  | ',' => some .comma
  | '.' => some .dot
  | '-' => some .minus
  | '+' => some .plus
  | ';' => some .semicolon
  | '*' => some .star
  | _ => none

def operators? : Char → Option (Symbol × Symbol)
  | '!' => some (.bang, .bangEqual)
  | '=' => some (.equal, .equalEqual)
  | '<' => some (.less, .lessEqual)
  | '>' => some (.greater, .greaterEqual)
  | _ => none

def isBlank (b : UInt8) : Bool :=
  char b == ' ' || char b == '\r' || char b == '\t' || isNewline b

def next (first : UInt8) (rest : List UInt8) : Lexeme × List UInt8 :=
  match punctuation? (char first), operators? (char first) with
  | some s, _ => symbol first rest s
  | none, some (alone, withEqual) => operator first rest alone withEqual
  | none, none =>
    if char first == '/' then slash first rest
    else if isBlank first then (⟨[first], .blank⟩, rest)
    else if isQuote first then string first rest
    else if isDigit first then number first rest
    else if isWordStart first then word first rest
    else unexpected first rest

theorem length_dropWhile_le (p : UInt8 → Bool) (bytes : List UInt8) :
    (bytes.dropWhile p).length ≤ bytes.length :=
  (List.dropWhile_suffix p).length_le

theorem length_fraction_le (bytes : List UInt8) : (fraction bytes).2.length ≤ bytes.length := by
  unfold fraction
  split
  · simp
  · simp
  · rename_i point first rest
    split
    · have := length_dropWhile_le isDigit rest
      simp only [run, List.length_cons]
      omega
    · simp

theorem length_number_le (first : UInt8) (rest : List UInt8) :
    (number first rest).2.length ≤ rest.length :=
  Nat.le_trans (length_fraction_le _) (length_dropWhile_le _ _)

theorem length_string_le (first : UInt8) (rest : List UInt8) :
    (string first rest).2.length ≤ rest.length := by
  have := length_dropWhile_le (fun b => !isQuote b) rest
  unfold string run
  split
  · simp
  · rename_i h
    rw [Prod.mk.injEq] at h
    rw [h.2, List.length_cons] at this
    simp only
    omega

theorem length_operator_le (first : UInt8) (rest : List UInt8) (alone withEqual : Symbol) :
    (operator first rest alone withEqual).2.length ≤ rest.length := by
  unfold operator
  split
  · simp [symbol]
  · split <;> simp [symbol]

theorem length_slash_le (first : UInt8) (rest : List UInt8) :
    (slash first rest).2.length ≤ rest.length := by
  unfold slash
  split
  · simp [symbol]
  · split
    · exact length_dropWhile_le _ _
    · simp [symbol]

theorem length_unexpected_le (first : UInt8) (rest : List UInt8) :
    (unexpected first rest).2.length ≤ rest.length := by
  unfold unexpected
  split
  rename_i h
  split at h
  · rw [Prod.mk.injEq] at h
    simp [← h.2]
  · rw [run, Prod.mk.injEq] at h
    simp only [← h.2]
    exact length_dropWhile_le _ _

theorem length_next_le (first : UInt8) (rest : List UInt8) :
    (next first rest).2.length ≤ rest.length := by
  unfold next
  split
  · exact Nat.le_refl _
  · exact length_operator_le _ _ _ _
  · split
    · exact length_slash_le _ _
    split
    · exact Nat.le_refl _
    split
    · exact length_string_le _ _
    split
    · exact length_number_le _ _
    split
    · exact length_dropWhile_le _ _
    · exact length_unexpected_le _ _

def split : List UInt8 → List Lexeme
  | [] => []
  | first :: rest =>
    let cut := next first rest
    cut.1 :: split cut.2
termination_by bytes => bytes.length
decreasing_by
  have := length_next_le first rest
  simp only [List.length_cons]
  omega

end Lexeme

end Quill
