import Quill.Bindings
import Quill.Error
import Quill.Resolution.Distances

set_option autoImplicit false

namespace Quill

inductive FunctionKind where
  | topLevel
  | function
  | method
  | initializer
  | anonymous
  deriving DecidableEq

inductive ClassKind where
  | none
  | root
  | derived
  deriving DecidableEq

structure Context where
  function : FunctionKind
  classKind : ClassKind
  loopDepth : Nat
  deriving DecidableEq

def Context.top : Context :=
  ⟨.topLevel, .none, 0⟩

def Context.inFunction (ctx : Context) (kind : FunctionKind) : Context :=
  { ctx with function := kind, loopDepth := 0 }

def Context.inLoop (ctx : Context) : Context :=
  { ctx with loopDepth := ctx.loopDepth + 1 }

def initializerName : String := "init"

/-- The scopes around a node, the innermost first, each with the names declared in it and whether
they are defined yet; the distances found, and the errors, the latest first. -/
structure Resolution where
  scopes : List (Bindings Bool)
  distances : Distances
  errors : List Error

namespace Resolution

def start : Resolution :=
  ⟨[], {}, []⟩

def report (r : Resolution) (fault : BindingFault) (t : Token) : Resolution :=
  { r with errors := .binding fault t :: r.errors }

def reportIf (r : Resolution) (p : Bool) (fault : BindingFault) (t : Token) : Resolution :=
  if p then r.report fault t else r

def openScope (r : Resolution) : Resolution :=
  { r with scopes := {} :: r.scopes }

def closeScope (r : Resolution) : Resolution :=
  { r with scopes := r.scopes.tail }

/-- Binds a name in the innermost scope; global names are not tracked. -/
def mark (r : Resolution) (name : String) (defined : Bool) : Resolution :=
  match r.scopes with
  | [] => r
  | scope :: outer => { r with scopes := scope.insert name defined :: outer }

def declaredHere (r : Resolution) (name : String) : Option Bool :=
  match r.scopes with
  | [] => none
  | scope :: _ => scope.find? name

def declare (r : Resolution) (name : Token) : Resolution :=
  match r.declaredHere name.lexeme with
  | some _ => r.report .redeclared name
  | none => r.mark name.lexeme false

def define (r : Resolution) (name : Token) : Resolution :=
  r.mark name.lexeme true

def declareAndDefine (r : Resolution) (name : Token) : Resolution :=
  (r.declare name).define name

def distance? (r : Resolution) (name : String) : Option Nat :=
  r.scopes.findIdx? (·.contains name)

def bind (r : Resolution) (id : RefId) (name : String) : Resolution :=
  match r.distance? name with
  | some d => { r with distances := r.distances.insert id d }
  | none => r

def readVariable (r : Resolution) (id : RefId) (name : Token) : Resolution :=
  (r.reportIf (r.declaredHere name.lexeme == some false) .ownInitializer name).bind id name.lexeme

def readThis (r : Resolution) (ctx : Context) (id : RefId) (keyword : Token) : Resolution :=
  match ctx.classKind with
  | .none => r.report .thisOutsideClass keyword
  | .root | .derived => r.bind id keyword.lexeme

def readSuper (r : Resolution) (ctx : Context) (id : RefId) (keyword : Token) : Resolution :=
  match ctx.classKind with
  | .none => r.report .superOutsideClass keyword
  | .root => r.report .superWithoutSuperclass keyword
  | .derived => r.bind id keyword.lexeme

def checkReturn (r : Resolution) (ctx : Context) (keyword : Token) (hasValue : Bool) : Resolution :=
  match ctx.function with
  | .topLevel => r.report .returnAtTopLevel keyword
  | .anonymous => r.report .returnFromAnonymous keyword
  | .initializer => r.reportIf hasValue .returnValueFromInitializer keyword
  | .function | .method => r

def checkInheritance (r : Resolution) (name : Token) : Expr → Resolution
  | .variable _ superName =>
    r.reportIf (superName.lexeme == name.lexeme) .inheritsItself superName
  | _ => r

end Resolution

def Function.methodKind (f : Function) : FunctionKind :=
  match f.name with
  | some name => if name.lexeme == initializerName then .initializer else .method
  | none => .method

mutual

def Expr.resolve (ctx : Context) : Expr → Resolution → Resolution
  | .literal _, r => r
  | .grouping inner, r => inner.resolve ctx r
  | .unary _ operand, r => operand.resolve ctx r
  | .binary left _ right, r | .logical left _ right, r => right.resolve ctx (left.resolve ctx r)
  | .variable id name, r => r.readVariable id name
  | .assign id name value, r => (value.resolve ctx r).bind id name.lexeme
  | .call callee _ arguments, r => resolveExprs ctx arguments (callee.resolve ctx r)
  | .get object _, r => object.resolve ctx r
  | .set object _ value, r => object.resolve ctx (value.resolve ctx r)
  | .this id keyword, r => r.readThis ctx id keyword
  | .super id keyword _, r => r.readSuper ctx id keyword
  | .function f, r => f.resolve (ctx.inFunction .anonymous) r

def resolveExprs (ctx : Context) : List Expr → Resolution → Resolution
  | [], r => r
  | e :: rest, r => resolveExprs ctx rest (e.resolve ctx r)

/-- Parameters and body share one scope. -/
def Function.resolve (ctx : Context) : Function → Resolution → Resolution
  | ⟨_, params, body⟩, r =>
    (resolveStmts ctx body (params.foldl Resolution.declareAndDefine r.openScope)).closeScope

def resolveMethods (ctx : Context) : List Function → Resolution → Resolution
  | [], r => r
  | f :: rest, r => resolveMethods ctx rest (f.resolve (ctx.inFunction f.methodKind) r)

def Stmt.resolve (ctx : Context) : Stmt → Resolution → Resolution
  | .expression e, r | .print e, r => e.resolve ctx r
  | .var name none, r => r.declareAndDefine name
  | .var name (some e), r => (e.resolve ctx (r.declare name)).define name
  | .block body, r => (resolveStmts ctx body r.openScope).closeScope
  | .conditional condition thenBranch none, r => thenBranch.resolve ctx (condition.resolve ctx r)
  | .conditional condition thenBranch (some elseBranch), r =>
    elseBranch.resolve ctx (thenBranch.resolve ctx (condition.resolve ctx r))
  | .loop condition body, r => body.resolve ctx.inLoop (condition.resolve ctx r)
  | .breakLoop keyword, r => r.reportIf (ctx.loopDepth == 0) .breakOutsideLoop keyword
  | .returnFrom keyword none, r => r.checkReturn ctx keyword false
  | .returnFrom keyword (some e), r => e.resolve ctx (r.checkReturn ctx keyword true)
  | .function f, r =>
    let r := match f.name with
      | some name => r.declareAndDefine name
      | none => r
    f.resolve (ctx.inFunction .function) r
  | .classDecl name none methods, r =>
    let ctx := { ctx with classKind := .root }
    let r := ((r.declareAndDefine name).openScope).mark "this" true
    (resolveMethods ctx methods r).closeScope
  | .classDecl name (some superclass) methods, r =>
    let ctx := { ctx with classKind := .derived }
    let r := superclass.resolve ctx ((r.declareAndDefine name).checkInheritance name superclass)
    let r := ((r.openScope.mark "super" true).openScope).mark "this" true
    (resolveMethods ctx methods r).closeScope.closeScope

def resolveStmts (ctx : Context) : List Stmt → Resolution → Resolution
  | [], r => r
  | s :: rest, r => resolveStmts ctx rest (s.resolve ctx r)

end

def Resolution.result (r : Resolution) : Except (List Error) Distances :=
  match r.errors with
  | [] => .ok r.distances
  | errors => .error errors.reverse

def resolveProgram (body : List Stmt) : Except (List Error) Distances :=
  (resolveStmts .top body .start).result

def resolveExpression (e : Expr) : Except (List Error) Distances :=
  (e.resolve .top .start).result

end Quill
