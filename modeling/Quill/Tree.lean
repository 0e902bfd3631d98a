import Quill.Token

set_option autoImplicit false

namespace Quill

inductive Literal where
  | nil
  | boolean (value : Bool)
  | number (value : Float)
  | string (value : String)

/-- The identity of an occurrence of a name; no two occurrences share one. -/
abbrev RefId := Nat

mutual

inductive Expr where
  | literal (value : Literal)
  | grouping (inner : Expr)
  | unary (operator : Token) (operand : Expr)
  | binary (left : Expr) (operator : Token) (right : Expr)
  | logical (left : Expr) (operator : Token) (right : Expr)
  | variable (id : RefId) (name : Token)
  | assign (id : RefId) (name : Token) (value : Expr)
  | call (callee : Expr) (paren : Token) (arguments : List Expr)
  | get (object : Expr) (name : Token)
  | set (object : Expr) (name : Token) (value : Expr)
  | this (id : RefId) (keyword : Token)
  | super (id : RefId) (keyword : Token) (method : Token)
  | function (f : Function)

structure Function where
  name : Option Token
  params : List Token
  body : List Stmt

inductive Stmt where
  | expression (e : Expr)
  | print (e : Expr)
  | var (name : Token) (initializer : Option Expr)
  | block (body : List Stmt)
  | conditional (condition : Expr) (thenBranch : Stmt) (elseBranch : Option Stmt)
  | loop (condition : Expr) (body : Stmt)
  | breakLoop (keyword : Token)
  | returnFrom (keyword : Token) (value : Option Expr)
  | function (f : Function)
  | classDecl (name : Token) (superclass : Option Expr) (methods : List Function)

end

instance : Inhabited Expr := ⟨.literal .nil⟩

instance : Inhabited Stmt := ⟨.block []⟩

namespace Function

def arity (f : Function) : Nat :=
  f.params.length

def label (f : Function) : String :=
  match f.name with
  | some name => name.lexeme
  | none => ""

end Function

end Quill
