import Quill.Proofs.Grammar.Soundness
import Quill.Proofs.Resolution.Locality

set_option autoImplicit false

namespace Quill

inductive Layer where
  | loop
  | block
  | function
  | method (inherits : Bool) (name : String)
  | anonymous
  deriving DecidableEq

namespace Layer

def isRoutine : Layer → Bool
  | function | method .. | anonymous => true
  | loop | block => false

def isMethod : Layer → Bool
  | method .. => true
  | _ => false

def isScope : Layer → Bool
  | loop => false
  | _ => true

end Layer

inductive Node where
  | expr (e : Expr)
  | stmt (s : Stmt)
  | routine (f : Function)

/-- A node with all that lies around it, the innermost first. -/
structure Site where
  around : List Layer
  node : Node

mutual

def Expr.sites (around : List Layer) (e : Expr) : List Site :=
  ⟨around, .expr e⟩ :: match e with
  | .literal _ | .variable .. | .this .. | .super .. => []
  | .grouping e | .unary _ e | .get e _ | .assign _ _ e => e.sites around
  | .binary left _ right | .logical left _ right => left.sites around ++ right.sites around
  | .call callee _ arguments => callee.sites around ++ exprSites around arguments
  | .set object _ value => value.sites around ++ object.sites around
  | .function f => f.sites (.anonymous :: around)

def exprSites (around : List Layer) : List Expr → List Site
  | [] => []
  | e :: rest => e.sites around ++ exprSites around rest

def Function.sites (around : List Layer) : Function → List Site
  | ⟨name, params, body⟩ => ⟨around, .routine ⟨name, params, body⟩⟩ :: stmtSites around body

def methodSites (around : List Layer) (inherits : Bool) : List Function → List Site
  | [] => []
  | f :: rest =>
    f.sites (.method inherits f.label :: around) ++ methodSites around inherits rest

def Stmt.sites (around : List Layer) (s : Stmt) : List Site :=
  ⟨around, .stmt s⟩ :: match s with
  | .expression e | .print e | .var _ (some e) | .returnFrom _ (some e) => e.sites around
  | .var _ none | .breakLoop _ | .returnFrom _ none => []
  | .block body => stmtSites (.block :: around) body
  | .conditional condition thenBranch none => condition.sites around ++ thenBranch.sites around
  | .conditional condition thenBranch (some elseBranch) =>
    condition.sites around ++ (thenBranch.sites around ++ elseBranch.sites around)
  | .loop condition body => condition.sites around ++ body.sites (.loop :: around)
  | .function f => f.sites (.function :: around)
  | .classDecl _ none methods => methodSites around false methods
  | .classDecl _ (some superclass) methods =>
    superclass.sites around ++ methodSites around true methods

def stmtSites (around : List Layer) : List Stmt → List Site
  | [] => []
  | s :: rest => s.sites around ++ stmtSites around rest

end

/-- The names a statement declares in the scope it stands in. -/
def Stmt.declarations : Stmt → List Token
  | .var name _ | .classDecl name _ _ => [name]
  | .function f => f.name.toList
  | .conditional _ thenBranch none => thenBranch.declarations
  | .conditional _ thenBranch (some elseBranch) =>
    thenBranch.declarations ++ elseBranch.declarations
  | .loop _ body => body.declarations
  | .expression _ | .print _ | .block _ | .breakLoop _ | .returnFrom .. => []

def declarationsOf (body : List Stmt) : List Token :=
  body.flatMap Stmt.declarations

mutual

def Expr.reads : Expr → List Token
  | .literal _ | .this .. | .super .. | .function _ => []
  | .grouping e | .unary _ e | .get e _ | .assign _ _ e => e.reads
  | .binary left _ right | .logical left _ right => left.reads ++ right.reads
  | .variable _ name => [name]
  | .call callee _ arguments => callee.reads ++ exprReads arguments
  | .set object _ value => value.reads ++ object.reads

def exprReads : List Expr → List Token
  | [] => []
  | e :: rest => e.reads ++ exprReads rest

end

namespace Site

/-- The four rules on where things stand. -/
def Placed (s : Site) : Prop :=
  match s.node with
  | .stmt (.breakLoop _) => s.around.find? (fun l => l = .loop || l.isRoutine) = some .loop
  | .stmt (.returnFrom _ value) =>
    match s.around.find? Layer.isRoutine with
    | some .function => True
    | some (.method _ name) => name = initializerName → value.isNone
    | _ => False
  | .expr (.this ..) => ∃ l ∈ s.around, l.isMethod
  | .expr (.super ..) => ∃ name, s.around.find? Layer.isMethod = some (.method true name)
  | .stmt (.classDecl name (some (.variable _ superName)) _) => superName.lexeme ≠ name.lexeme
  | _ => True

/-- The names declared in the scope that a node opens; parameters and body share one. -/
def scope (s : Site) : List String :=
  match s.node with
  | .stmt (.block body) => (declarationsOf body).map Token.lexeme
  | .routine f => (f.params ++ declarationsOf f.body).map Token.lexeme
  | _ => []

structure Scoped (s : Site) : Prop where
  distinct : s.scope.Nodup
  initialized : ∀ name e, s.node = .stmt (.var name (some e)) → (∃ l ∈ s.around, l.isScope) →
    name.lexeme ∉ e.reads.map Token.lexeme

end Site

end Quill
