import Quill.Json

set_option autoImplicit false

namespace Quill

/-- The token classes that carry no value of their own. -/
inductive Symbol where
  | leftParen | rightParen | leftBrace | rightBrace
  | comma | dot | minus | plus | semicolon | slash | star
  | bang | bangEqual | equal | equalEqual | greater | greaterEqual | less | lessEqual
  | identifier
  | andKw | breakKw | classKw | elseKw | falseKw | funKw | forKw | ifKw | nilKw | orKw | printKw
  | returnKw | superKw | thisKw | trueKw | varKw | whileKw
  | eof
  deriving DecidableEq

namespace Symbol

def label : Symbol → String
  | leftParen => "LEFT_PAREN"
  | rightParen => "RIGHT_PAREN"
  | leftBrace => "LEFT_BRACE"
  | rightBrace => "RIGHT_BRACE"
  | comma => "COMMA"
  | dot => "DOT"
  | minus => "MINUS"
  | plus => "PLUS"
  | semicolon => "SEMICOLON"
  | slash => "SLASH"
  | star => "STAR"
  | bang => "BANG"
  | bangEqual => "BANG_EQUAL"
  | equal => "EQUAL"
  | equalEqual => "EQUAL_EQUAL"
  | greater => "GREATER"
  | greaterEqual => "GREATER_EQUAL"
  | less => "LESS"
  | lessEqual => "LESS_EQUAL"
  | identifier => "IDENTIFIER"
  | andKw => "AND"
  | breakKw => "BREAK"
  | classKw => "CLASS"
  | elseKw => "ELSE"
  | falseKw => "FALSE"
  | funKw => "FUN"
  | forKw => "FOR"
  | ifKw => "IF"
  | nilKw => "NIL"
  | orKw => "OR"
  | printKw => "PRINT"
  | returnKw => "RETURN"
  | superKw => "SUPER"
  | thisKw => "THIS"
  | trueKw => "TRUE"
  | varKw => "VAR"
  | whileKw => "WHILE"
  | eof => "EOF"

def spelling : Symbol → String
  | leftParen => "("
  | rightParen => ")"
  | leftBrace => "\x7b"
  | rightBrace => "\x7d"
  | comma => ","
  | dot => "."
  | minus => "-"
  | plus => "+"
  | semicolon => ";"
  | slash => "/"
  | star => "*"
  | bang => "!"
  | bangEqual => "!="
  | equal => "="
  | equalEqual => "=="
  | greater => ">"
  | greaterEqual => ">="
  | less => "<"
  | lessEqual => "<="
  | andKw => "and"
  | breakKw => "break"
  | classKw => "class"
  | elseKw => "else"
  | falseKw => "false"
  | funKw => "fun"
  | forKw => "for"
  | ifKw => "if"
  | nilKw => "nil"
  | orKw => "or"
  | printKw => "print"
  | returnKw => "return"
  | superKw => "super"
  | thisKw => "this"
  | trueKw => "true"
  | varKw => "var"
  | whileKw => "while"
  | identifier | eof => ""

def keywords : List Symbol :=
  [andKw, breakKw, classKw, elseKw, falseKw, funKw, forKw, ifKw, nilKw, orKw, printKw, returnKw,
    superKw, thisKw, trueKw, varKw, whileKw]

def all : List Symbol :=
  [leftParen, rightParen, leftBrace, rightBrace, comma, dot, minus, plus, semicolon, slash, star,
    bang, bangEqual, equal, equalEqual, greater, greaterEqual, less, lessEqual, identifier]
    ++ keywords ++ [eof]

def ofLabel? (label : String) : Option Symbol :=
  all.find? (·.label == label)

def ofWord (word : String) : Symbol :=
  (keywords.find? (·.spelling == word)).getD identifier

end Symbol

inductive Kind where
  | symbol (s : Symbol)
  | string (contents : String)
  | number (value : Float)

namespace Kind

def label : Kind → String
  | symbol s => s.label
  | string _ => "STRING"
  | number _ => "NUMBER"

/-- Two kinds agree if they are of one class, whatever values they carry. -/
def same : Kind → Kind → Bool
  | symbol a, symbol b => a == b
  | string _, string _ => true
  | number _, number _ => true
  | _, _ => false

/-- Whole numbers within the range of a signed 64-bit integer end in `.0`, and zero has no sign
there; all others are written in the fewest digits. -/
def numberText (x : Double) : String :=
  match x with
  | .finite negative magnitude =>
    match magnitude.toNat? with
    | some n =>
      if n < twoPow 63 then signed (negative && n != 0) (String.ofList (digitsOf n) ++ ".0")
      else x.plain
    | none => x.plain
  | _ => x.plain

def literal : Kind → String
  | symbol _ => "null"
  | string contents => contents
  | number value => numberText (.ofFloat value)

def toJson : Kind → Json
  | symbol s => .text s.label
  | string contents => .object [("STRING", .text contents)]
  | number value => .object [("NUMBER", .real (.ofFloat value))]

end Kind

structure Token where
  kind : Kind
  lexeme : String
  line : Nat

namespace Token

def is (t : Token) (s : Symbol) : Bool :=
  match t.kind with
  | .symbol s' => s' == s
  | _ => false

def equal (a b : Token) : Bool :=
  a.kind.same b.kind && a.lexeme == b.lexeme && a.line == b.line

def display (t : Token) : String :=
  s!"{t.kind.label} {t.lexeme} {t.kind.literal}"

def toJson (t : Token) : Json :=
  .object [("token_type", t.kind.toJson), ("lexeme", .text t.lexeme), ("line", .natural t.line)]

end Token

end Quill
