import Quill.Tree

set_option autoImplicit false

namespace Quill

inductive ReferenceRole where
  | variable
  | assignment
  | this
  | super
  deriving DecidableEq

/-- An occurrence of a name whose binding is decided before the program runs. -/
structure Reference where
  role : ReferenceRole
  token : Token
  id : RefId

mutual

def Expr.references : Expr → List Reference
  | .literal _ => []
  | .grouping inner => inner.references
  | .unary _ operand => operand.references
  | .binary left _ right | .logical left _ right => left.references ++ right.references
  | .variable id name => [⟨.variable, name, id⟩]
  | .assign id name value => ⟨.assignment, name, id⟩ :: value.references
  | .call callee _ arguments => callee.references ++ exprReferences arguments
  | .get object _ => object.references
  | .set object _ value => object.references ++ value.references
  | .this id keyword => [⟨.this, keyword, id⟩]
  | .super id keyword _ => [⟨.super, keyword, id⟩]
  | .function f => f.references

def exprReferences : List Expr → List Reference
  | [] => []
  | e :: rest => e.references ++ exprReferences rest

def Function.references : Function → List Reference
  | ⟨_, _, body⟩ => stmtReferences body

def functionReferences : List Function → List Reference
  | [] => []
  | f :: rest => f.references ++ functionReferences rest

def Stmt.references : Stmt → List Reference
  | .expression e | .print e => e.references
  | .var _ none => []
  | .var _ (some e) => e.references
  | .block body => stmtReferences body
  | .conditional condition thenBranch none => condition.references ++ thenBranch.references
  | .conditional condition thenBranch (some elseBranch) =>
    condition.references ++ thenBranch.references ++ elseBranch.references
  | .loop condition body => condition.references ++ body.references
  | .breakLoop _ => []
  | .returnFrom _ none => []
  | .returnFrom _ (some e) => e.references
  | .function f => f.references
  | .classDecl _ none methods => functionReferences methods
  | .classDecl _ (some superclass) methods => superclass.references ++ functionReferences methods

def stmtReferences : List Stmt → List Reference
  | [] => []
  | s :: rest => s.references ++ stmtReferences rest

end

end Quill
