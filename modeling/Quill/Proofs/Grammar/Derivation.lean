import Quill.Tree

set_option autoImplicit false

namespace Quill

inductive Tier where
  | logicOr
  | logicAnd
  | equality
  | comparison
  | term
  | factor
  deriving DecidableEq

namespace Tier

def symbols : Tier → List Symbol
  | logicOr => [.orKw]
  | logicAnd => [.andKw]
  | equality => [.bangEqual, .equalEqual]
  | comparison => [.greater, .greaterEqual, .less, .lessEqual]
  | term => [.minus, .plus]
  | factor => [.star, .slash]

def node : Tier → Expr → Token → Expr → Expr
  | logicOr | logicAnd => .logical
  | equality | comparison | term | factor => .binary

def all : List Tier :=
  [logicOr, logicAnd, equality, comparison, term, factor]

end Tier

inductive Phrase where
  | declarations
  | declaration (dangling : Bool)
  | varDecl
  | superclass
  | function
  | functions
  | parameters
  | names
  | block
  | statement (dangling : Bool)
  | exprStmt
  | forStart
  | optional
  | expression
  | chain (tiers : List Tier)
  | unary
  | call
  | arguments
  | expressions
  | primary

@[reducible] def Phrase.Tree : Phrase → Type
  | declarations | block => List Stmt
  | declaration _ | varDecl | statement _ | exprStmt => Stmt
  | superclass | optional => Option Expr
  | function => Function
  | functions => List Function
  | parameters | names => List Token
  | forStart => Option Stmt
  | expression | chain _ | unary | call | primary => Expr
  | arguments | expressions => List Expr

def mostItems : Nat := 255

def withIncrement (body : Stmt) : Option Expr → Stmt
  | none => body
  | some e => .block [body, .expression e]

def afterStart (loop : Stmt) : Option Stmt → Stmt
  | none => loop
  | some s => .block [s, loop]

def conditionOr (default : Expr) : Option Expr → Expr
  | none => default
  | some e => e

inductive Derives : (p : Phrase) → List Token → p.Tree → Prop where
  -- program → declaration* EOF
  | noDeclarations : Derives .declarations [] []
  | moreDeclarations {dangling : Bool} {ts us : List Token} {s : Stmt} {rest : List Stmt} :
      Derives (.declaration dangling) ts s → Derives .declarations us rest →
      Derives .declarations (ts ++ us) (s :: rest)
  -- declaration → classDecl | funDecl | varDecl | statement
  | classDecl {keyword name opening closing : Token} {us vs : List Token}
      {parent : Option Expr} {methods : List Function} :
      keyword.is .classKw → name.is .identifier → Derives .superclass us parent →
      opening.is .leftBrace → Derives .functions vs methods → closing.is .rightBrace →
      Derives (.declaration false) (keyword :: name :: (us ++ opening :: (vs ++ [closing])))
        (.classDecl name parent methods)
  | funDecl {keyword : Token} {ts : List Token} {f : Function} :
      keyword.is .funKw → Derives .function ts f →
      Derives (.declaration false) (keyword :: ts) (.function f)
  | varDecl {ts : List Token} {s : Stmt} :
      Derives .varDecl ts s → Derives (.declaration false) ts s
  | statement {dangling : Bool} {ts : List Token} {s : Stmt} :
      Derives (.statement dangling) ts s → Derives (.declaration dangling) ts s
  -- classDecl → "class" IDENT ( "<" IDENT )? "{" function* "}"
  | noSuperclass : Derives .superclass [] none
  | superclass {less name : Token} {id : RefId} :
      less.is .less → name.is .identifier →
      Derives .superclass [less, name] (some (.variable id name))
  | noFunctions : Derives .functions [] []
  | moreFunctions {ts us : List Token} {f : Function} {rest : List Function} :
      Derives .function ts f → Derives .functions us rest →
      Derives .functions (ts ++ us) (f :: rest)
  -- function → IDENT "(" parameters? ")" block
  | function {name opening closing : Token} {ts us : List Token} {params : List Token}
      {body : List Stmt} :
      name.is .identifier → opening.is .leftParen → Derives .parameters ts params →
      closing.is .rightParen → Derives .block us body →
      Derives .function (name :: opening :: (ts ++ closing :: us)) ⟨some name, params, body⟩
  -- parameters → IDENT ( "," IDENT )*
  | noParameters : Derives .parameters [] []
  | parameters {ts : List Token} {params : List Token} :
      Derives .names ts params → params.length ≤ mostItems → Derives .parameters ts params
  | lastName {name : Token} : name.is .identifier → Derives .names [name] [name]
  | moreNames {name comma : Token} {ts : List Token} {rest : List Token} :
      name.is .identifier → comma.is .comma → Derives .names ts rest →
      Derives .names (name :: comma :: ts) (name :: rest)
  -- varDecl → "var" IDENT ( "=" expression )? ";"
  | bareVar {keyword name semicolon : Token} :
      keyword.is .varKw → name.is .identifier → semicolon.is .semicolon →
      Derives .varDecl [keyword, name, semicolon] (.var name none)
  | varWith {keyword name equal semicolon : Token} {ts : List Token} {e : Expr} :
      keyword.is .varKw → name.is .identifier → equal.is .equal → Derives .expression ts e →
      semicolon.is .semicolon →
      Derives .varDecl (keyword :: name :: equal :: (ts ++ [semicolon])) (.var name (some e))
  -- block → "{" declaration* "}"
  | block {opening closing : Token} {ts : List Token} {body : List Stmt} :
      opening.is .leftBrace → Derives .declarations ts body → closing.is .rightBrace →
      Derives .block (opening :: (ts ++ [closing])) body
  -- statement → exprStmt | forStmt | ifStmt | printStmt | returnStmt | whileStmt | breakStmt | block
  | exprStmt {ts : List Token} {s : Stmt} :
      Derives .exprStmt ts s → Derives (.statement false) ts s
  | expressionStatement {semicolon : Token} {ts : List Token} {e : Expr} :
      Derives .expression ts e → semicolon.is .semicolon →
      Derives .exprStmt (ts ++ [semicolon]) (.expression e)
  | blockStmt {ts : List Token} {body : List Stmt} :
      Derives .block ts body → Derives (.statement false) ts (.block body)
  | printStmt {keyword semicolon : Token} {ts : List Token} {e : Expr} :
      keyword.is .printKw → Derives .expression ts e → semicolon.is .semicolon →
      Derives (.statement false) (keyword :: (ts ++ [semicolon])) (.print e)
  | breakStmt {keyword semicolon : Token} :
      keyword.is .breakKw → semicolon.is .semicolon →
      Derives (.statement false) [keyword, semicolon] (.breakLoop keyword)
  | returnStmt {keyword semicolon : Token} {ts : List Token} {value : Option Expr} :
      keyword.is .returnKw → Derives .optional ts value → semicolon.is .semicolon →
      Derives (.statement false) (keyword :: (ts ++ [semicolon])) (.returnFrom keyword value)
  | whileStmt {dangling : Bool} {keyword opening closing : Token} {ts us : List Token}
      {condition : Expr} {body : Stmt} :
      keyword.is .whileKw → opening.is .leftParen → Derives .expression ts condition →
      closing.is .rightParen → Derives (.statement dangling) us body →
      Derives (.statement dangling) (keyword :: opening :: (ts ++ closing :: us))
        (.loop condition body)
  | ifStmt {dangling : Bool} {keyword opening closing : Token} {ts us : List Token}
      {condition : Expr} {thenBranch : Stmt} :
      keyword.is .ifKw → opening.is .leftParen → Derives .expression ts condition →
      closing.is .rightParen → Derives (.statement dangling) us thenBranch →
      Derives (.statement true) (keyword :: opening :: (ts ++ closing :: us))
        (.conditional condition thenBranch none)
  -- An `else` belongs to the nearest `if`, so none is missing at the end of the first branch.
  | ifElseStmt {dangling : Bool} {keyword opening closing otherwise : Token}
      {ts us vs : List Token} {condition : Expr} {thenBranch elseBranch : Stmt} :
      keyword.is .ifKw → opening.is .leftParen → Derives .expression ts condition →
      closing.is .rightParen → Derives (.statement false) us thenBranch →
      otherwise.is .elseKw → Derives (.statement dangling) vs elseBranch →
      Derives (.statement dangling)
        (keyword :: opening :: (ts ++ closing :: (us ++ otherwise :: vs)))
        (.conditional condition thenBranch (some elseBranch))
  | forStmt {dangling : Bool} {keyword opening middle closing : Token}
      {ts us vs ws : List Token} {start : Option Stmt} {condition increment : Option Expr}
      {body : Stmt} :
      keyword.is .forKw → opening.is .leftParen → Derives .forStart ts start →
      Derives .optional us condition → middle.is .semicolon → Derives .optional vs increment →
      closing.is .rightParen → Derives (.statement dangling) ws body →
      Derives (.statement dangling)
        (keyword :: opening :: (ts ++ (us ++ middle :: (vs ++ closing :: ws))))
        (afterStart (.loop (conditionOr (.literal (.boolean true)) condition)
          (withIncrement body increment)) start)
  | startVar {ts : List Token} {s : Stmt} : Derives .varDecl ts s → Derives .forStart ts (some s)
  | startExpr {ts : List Token} {s : Stmt} : Derives .exprStmt ts s → Derives .forStart ts (some s)
  | noStart {semicolon : Token} : semicolon.is .semicolon → Derives .forStart [semicolon] none
  | absent : Derives .optional [] none
  | present {ts : List Token} {e : Expr} :
      Derives .expression ts e → Derives .optional ts (some e)
  -- expression → assignment; assignment → ( call "." )? IDENT "=" assignment | logic_or
  | assign {name equal : Token} {ts : List Token} {id : RefId} {value : Expr} :
      name.is .identifier → equal.is .equal → Derives .expression ts value →
      Derives .expression (name :: equal :: ts) (.assign id name value)
  | set {dot name equal : Token} {ts us : List Token} {object value : Expr} :
      Derives .call ts object → dot.is .dot → name.is .identifier → equal.is .equal →
      Derives .expression us value →
      Derives .expression (ts ++ dot :: name :: equal :: us) (.set object name value)
  | operators {ts : List Token} {e : Expr} :
      Derives (.chain Tier.all) ts e → Derives .expression ts e
  -- logic_or → logic_and ( "or" logic_and )* and so on, grouped to the left
  | operand {tier : Tier} {tighter : List Tier} {ts : List Token} {e : Expr} :
      Derives (.chain tighter) ts e → Derives (.chain (tier :: tighter)) ts e
  | link {tier : Tier} {tighter : List Tier} {operator : Token} {ts us : List Token}
      {left right : Expr} :
      Derives (.chain (tier :: tighter)) ts left → tier.symbols.any operator.is →
      Derives (.chain tighter) us right →
      Derives (.chain (tier :: tighter)) (ts ++ operator :: us) (tier.node left operator right)
  | tightest {ts : List Token} {e : Expr} : Derives .unary ts e → Derives (.chain []) ts e
  -- unary → ( "!" | "-" ) unary | call
  | prefixed {operator : Token} {ts : List Token} {e : Expr} :
      [Symbol.bang, .minus].any operator.is → Derives .unary ts e →
      Derives .unary (operator :: ts) (.unary operator e)
  | unprefixed {ts : List Token} {e : Expr} : Derives .call ts e → Derives .unary ts e
  -- call → primary ( "(" arguments? ")" | "." IDENT )*
  | callee {ts : List Token} {e : Expr} : Derives .primary ts e → Derives .call ts e
  | call {opening closing : Token} {ts us : List Token} {callee : Expr} {arguments : List Expr} :
      Derives .call ts callee → opening.is .leftParen → Derives .arguments us arguments →
      closing.is .rightParen →
      Derives .call (ts ++ opening :: (us ++ [closing])) (.call callee closing arguments)
  | get {dot name : Token} {ts : List Token} {object : Expr} :
      Derives .call ts object → dot.is .dot → name.is .identifier →
      Derives .call (ts ++ [dot, name]) (.get object name)
  -- arguments → expression ( "," expression )*
  | noArguments : Derives .arguments [] []
  | arguments {ts : List Token} {es : List Expr} :
      Derives .expressions ts es → es.length ≤ mostItems → Derives .arguments ts es
  | lastExpression {ts : List Token} {e : Expr} :
      Derives .expression ts e → Derives .expressions ts [e]
  | moreExpressions {comma : Token} {ts us : List Token} {e : Expr} {rest : List Expr} :
      Derives .expression ts e → comma.is .comma → Derives .expressions us rest →
      Derives .expressions (ts ++ comma :: us) (e :: rest)
  -- primary → NUMBER | STRING | "true" | "false" | "nil" | "this" | IDENT | "(" expression ")"
  --         | "super" "." IDENT | "fun" "(" parameters? ")" block
  | number {t : Token} {value : Float} :
      t.kind = .number value → Derives .primary [t] (.literal (.number value))
  | string {t : Token} {value : String} :
      t.kind = .string value → Derives .primary [t] (.literal (.string value))
  | trueLit {t : Token} : t.is .trueKw → Derives .primary [t] (.literal (.boolean true))
  | falseLit {t : Token} : t.is .falseKw → Derives .primary [t] (.literal (.boolean false))
  | nilLit {t : Token} : t.is .nilKw → Derives .primary [t] (.literal .nil)
  | this {t : Token} {id : RefId} : t.is .thisKw → Derives .primary [t] (.this id t)
  | reference {t : Token} {id : RefId} : t.is .identifier → Derives .primary [t] (.variable id t)
  | grouping {opening closing : Token} {ts : List Token} {e : Expr} :
      opening.is .leftParen → Derives .expression ts e → closing.is .rightParen →
      Derives .primary (opening :: (ts ++ [closing])) (.grouping e)
  | super {keyword dot method : Token} {id : RefId} :
      keyword.is .superKw → dot.is .dot → method.is .identifier →
      Derives .primary [keyword, dot, method] (.super id keyword method)
  | anonymous {keyword opening closing : Token} {ts us : List Token} {params : List Token}
      {body : List Stmt} :
      keyword.is .funKw → opening.is .leftParen → Derives .parameters ts params →
      closing.is .rightParen → Derives .block us body →
      Derives .primary (keyword :: opening :: (ts ++ closing :: us))
        (.function ⟨none, params, body⟩)

end Quill
