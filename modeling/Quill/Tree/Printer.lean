import Quill.Tree

set_option autoImplicit false

namespace Quill

def Literal.numberText (x : Double) : String :=
  match x with
  | .finite negative magnitude =>
    match magnitude.toNat? with
    | some n => signed negative (String.ofList (digitsOf n) ++ ".0")
    | none => x.plain
  | _ => x.plain

def Literal.render : Literal → String
  | .nil => "nil"
  | .boolean true => "true"
  | .boolean false => "false"
  | .number value => numberText (.ofFloat value)
  | .string value => value

def Function.renderParams (f : Function) : String :=
  "(" ++ String.intercalate " " (f.params.map Token.lexeme) ++ ")"

mutual

def Expr.render : Expr → String
  | .literal value => value.render
  | .grouping inner => "(group " ++ inner.render ++ ")"
  | .unary operator operand => "(" ++ operator.lexeme ++ " " ++ operand.render ++ ")"
  | .binary left operator right | .logical left operator right =>
    "(" ++ operator.lexeme ++ " " ++ left.render ++ " " ++ right.render ++ ")"
  | .variable _ name => name.lexeme
  | .assign _ name value => "(= " ++ name.lexeme ++ " " ++ value.render ++ ")"
  | .call callee _ arguments => "(call " ++ callee.render ++ renderArguments arguments ++ ")"
  | .get object name => "(get " ++ object.render ++ " " ++ name.lexeme ++ ")"
  | .set object name value =>
    "(set " ++ object.render ++ " " ++ name.lexeme ++ " " ++ value.render ++ ")"
  | .this _ _ => "this"
  | .super _ _ method => "(super " ++ method.lexeme ++ ")"
  | .function f => "(fun " ++ f.renderParams ++ ")"

def renderArguments : List Expr → String
  | [] => ""
  | e :: rest => " " ++ e.render ++ renderArguments rest

end

mutual

def Stmt.render : Stmt → String
  | .expression e => "(; " ++ e.render ++ ")"
  | .print e => "(print " ++ e.render ++ ")"
  | .var name none => "(var " ++ name.lexeme ++ ")"
  | .var name (some e) => "(var " ++ name.lexeme ++ " " ++ e.render ++ ")"
  | .block body => "\x7b" ++ renderStmts body ++ " \x7d"
  | .conditional condition thenBranch none =>
    "(if " ++ condition.render ++ " " ++ thenBranch.render ++ ")"
  | .conditional condition thenBranch (some elseBranch) =>
    "(if " ++ condition.render ++ " " ++ thenBranch.render ++ " " ++ elseBranch.render ++ ")"
  | .loop condition body => "(while " ++ condition.render ++ " " ++ body.render ++ ")"
  | .breakLoop _ => "(break)"
  | .returnFrom _ none => "(return)"
  | .returnFrom _ (some e) => "(return " ++ e.render ++ ")"
  | .function f => f.render
  | .classDecl name none methods => "(class " ++ name.lexeme ++ renderMethods methods ++ ")"
  | .classDecl name (some superclass) methods =>
    "(class " ++ name.lexeme ++ " < " ++ superclass.render ++ renderMethods methods ++ ")"

def renderStmts : List Stmt → String
  | [] => ""
  | s :: rest => " " ++ s.render ++ renderStmts rest

def Function.render : Function → String
  | ⟨name, params, body⟩ =>
    let f : Function := ⟨name, params, body⟩
    "(fun " ++ f.label ++ " " ++ f.renderParams ++ " \x7b" ++ renderStmts body ++ " \x7d)"

def renderMethods : List Function → String
  | [] => ""
  | f :: rest => " " ++ f.render ++ renderMethods rest

end

end Quill
