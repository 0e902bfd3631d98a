import Quill.Proofs.Tree.Shape

set_option autoImplicit false

namespace Quill

/-- The tokens of a node, those of its parts apart. -/
def Node.tokens : Node → List Token
  | .expr (.unary operator _) | .expr (.binary _ operator _) | .expr (.logical _ operator _) =>
    [operator]
  | .expr (.variable _ name) | .expr (.assign _ name _) | .expr (.get _ name)
  | .expr (.set _ name _) => [name]
  | .expr (.this _ keyword) => [keyword]
  | .expr (.super _ keyword method) => [keyword, method]
  | .expr (.call _ paren _) => [paren]
  | .expr (.literal _) | .expr (.grouping _) | .expr (.function _) => []
  | .stmt (.var name _) | .stmt (.classDecl name _ _) => [name]
  | .stmt (.breakLoop keyword) | .stmt (.returnFrom keyword _) => [keyword]
  | .stmt (.expression _) | .stmt (.print _) | .stmt (.block _) | .stmt (.conditional ..)
  | .stmt (.loop ..) | .stmt (.function _) => []
  | .routine f => f.name.toList ++ f.params

section

variable (P : Token → Prop)

def AllIn (sites : List Site) : Prop :=
  ∀ s ∈ sites, ∀ t ∈ s.node.tokens, P t

@[simp] theorem allIn_nil : AllIn P [] :=
  fun _ mem => by cases mem

@[simp] theorem allIn_append (a b : List Site) : AllIn P (a ++ b) ↔ AllIn P a ∧ AllIn P b :=
  List.forall_mem_append

@[simp] theorem allIn_cons (s : Site) (a : List Site) :
    AllIn P (s :: a) ↔ (∀ t ∈ s.node.tokens, P t) ∧ AllIn P a :=
  List.forall_mem_cons

def Phrase.All : (p : Phrase) → p.Tree → Prop
  | .declarations, body | .block, body => ∀ around, AllIn P (stmtSites around body)
  | .declaration _, s | .varDecl, s | .statement _, s | .exprStmt, s =>
    ∀ around, AllIn P (s.sites around)
  | .function, f => ∀ around, AllIn P (f.sites around)
  | .functions, fs => ∀ around inherits, AllIn P (methodSites around inherits fs)
  | .parameters, params | .names, params => ∀ param ∈ params, P param
  | .forStart, start => ∀ s ∈ start, ∀ around, AllIn P (s.sites around)
  | .superclass, value | .optional, value => ∀ e ∈ value, ∀ around, AllIn P (e.sites around)
  | .expression, e | .chain _, e | .unary, e | .call, e | .primary, e =>
    ∀ around, AllIn P (e.sites around)
  | .arguments, es | .expressions, es => ∀ around, AllIn P (exprSites around es)

end

variable {P : Token → Prop}

theorem all_afterStart {start : Option Stmt} {condition increment : Option Expr} {body : Stmt}
    (hstart : Phrase.forStart.All P start) (hcondition : Phrase.optional.All P condition)
    (hincrement : Phrase.optional.All P increment)
    (hbody : ∀ around, AllIn P (body.sites around)) (around : List Layer) :
    AllIn P ((afterStart (.loop (conditionOr (.literal (.boolean true)) condition)
      (withIncrement body increment)) start).sites around) := by
  have loop (around : List Layer) :
      AllIn P ((Stmt.loop (conditionOr (.literal (.boolean true)) condition)
        (withIncrement body increment)).sites around) := by
    have first : AllIn P ((conditionOr (.literal (.boolean true)) condition).sites around) := by
      cases condition with
      | none => simp [conditionOr, Expr.sites, Node.tokens]
      | some e => exact hcondition e rfl around
    have round : AllIn P ((withIncrement body increment).sites (.loop :: around)) := by
      cases increment with
      | none => exact hbody _
      | some e =>
        simpa [withIncrement, Stmt.sites, stmtSites, Node.tokens] using
          ⟨hbody _, hincrement e rfl _⟩
    simpa [Stmt.sites, Node.tokens] using ⟨first, round⟩
  cases start with
  | none => exact loop around
  | some s =>
    have both : AllIn P (stmtSites (.block :: around)
        [s, .loop (conditionOr (.literal (.boolean true)) condition)
          (withIncrement body increment)]) :=
      (allIn_append P _ _).mpr ⟨hstart s rfl _, (allIn_append P _ _).mpr ⟨loop _, allIn_nil P⟩⟩
    exact (allIn_cons P _ _).mpr ⟨List.forall_mem_nil P, both⟩

theorem Derives.all {p : Phrase} {ts : List Token} {x : p.Tree} (h : Derives p ts x)
    (all : ∀ t ∈ ts, P t) : p.All P x := by
  -- The tokens of a phrase are those of its parts, with its own between them, in the order in which
  -- they are written; the sites of a tree list the node first and then the parts.
  induction h with try simp only [List.forall_mem_append, List.forall_mem_cons] at all
  | noDeclarations | noArguments => exact fun _ => allIn_nil P
  | noFunctions => exact fun _ _ => allIn_nil P
  | noParameters | noSuperclass | noStart | absent => exact nofun
  | superclass _ _ =>
    rintro _ ⟨⟩ around
    simpa [Expr.sites, Node.tokens] using all.2.1
  | startVar _ ih | startExpr _ ih | present _ ih =>
    rintro _ ⟨⟩
    exact ih all
  | lastName _ => exact List.forall_mem_cons.mpr all
  | moreNames _ _ _ ih => exact List.forall_mem_cons.mpr ⟨all.1, ih all.2.2⟩
  | parameters _ _ ih | arguments _ _ ih | varDecl _ ih | statement _ ih | exprStmt _ ih
  | operators _ ih | operand _ ih | tightest _ ih | unprefixed _ ih | callee _ ih => exact ih all
  | block _ _ _ ih => exact ih all.2.1
  | moreDeclarations _ _ ih ih' =>
    exact fun around => (allIn_append P _ _).mpr ⟨ih all.1 around, ih' all.2 around⟩
  | moreExpressions _ _ _ ih ih' =>
    exact fun around => (allIn_append P _ _).mpr ⟨ih all.1 around, ih' all.2.2 around⟩
  | lastExpression _ ih =>
    exact fun around => (allIn_append P _ _).mpr ⟨ih all around, allIn_nil P⟩
  | moreFunctions _ _ ih ih' =>
    exact fun around inherits => (allIn_append P _ _).mpr ⟨ih all.1 _, ih' all.2 around inherits⟩
  | @classDecl _ _ _ _ _ _ parent _ _ _ _ _ _ _ ih ih' =>
    obtain ⟨-, name, parents, -, methods, -⟩ := all
    intro around
    cases parent with
    | none => simpa [Stmt.sites, Node.tokens, name] using ih' methods around false
    | some superclass =>
      simpa [Stmt.sites, Node.tokens, name] using
        ⟨ih parents superclass rfl around, ih' methods around true⟩
  | funDecl _ _ ih =>
    exact fun around => (allIn_cons P _ _).mpr ⟨List.forall_mem_nil P, ih all.2 _⟩
  | function _ _ _ _ _ ih ih' =>
    obtain ⟨name, -, params, -, body⟩ := all
    intro around
    simpa [Function.sites, Node.tokens, name] using ⟨ih params, ih' body around⟩
  | anonymous _ _ _ _ _ ih ih' =>
    obtain ⟨-, -, params, -, body⟩ := all
    intro around
    simpa [Expr.sites, Function.sites, Node.tokens] using ⟨ih params, ih' body _⟩
  | bareVar _ _ _ => exact fun around => by simpa [Stmt.sites, Node.tokens] using all.2.1
  | varWith _ _ _ _ _ ih =>
    obtain ⟨-, name, -, value, -⟩ := all
    exact fun around => (allIn_cons P _ _).mpr ⟨List.forall_mem_singleton.mpr name, ih value around⟩
  | expressionStatement _ _ ih =>
    exact fun around => (allIn_cons P _ _).mpr ⟨List.forall_mem_nil P, ih all.1 around⟩
  | printStmt _ _ _ ih =>
    exact fun around => (allIn_cons P _ _).mpr ⟨List.forall_mem_nil P, ih all.2.1 around⟩
  | blockStmt _ ih =>
    exact fun around => (allIn_cons P _ _).mpr ⟨List.forall_mem_nil P, ih all _⟩
  | breakStmt _ _ => exact fun around => by simpa [Stmt.sites, Node.tokens] using all.1
  | @returnStmt _ _ _ value _ _ _ ih =>
    intro around
    cases value with
    | none => simpa [Stmt.sites, Node.tokens] using all.1
    | some e => simpa [Stmt.sites, Node.tokens] using ⟨all.1, ih all.2.1 e rfl around⟩
  | whileStmt _ _ _ _ _ ih ih' =>
    obtain ⟨-, -, condition, -, body⟩ := all
    exact fun around => (allIn_cons P _ _).mpr ⟨List.forall_mem_nil P,
      (allIn_append P _ _).mpr ⟨ih condition around, ih' body _⟩⟩
  | ifStmt _ _ _ _ _ ih ih' =>
    obtain ⟨-, -, condition, -, branch⟩ := all
    exact fun around => (allIn_cons P _ _).mpr ⟨List.forall_mem_nil P,
      (allIn_append P _ _).mpr ⟨ih condition around, ih' branch around⟩⟩
  | ifElseStmt _ _ _ _ _ _ _ ih ih' ih'' =>
    obtain ⟨-, -, condition, -, branch, -, branch'⟩ := all
    intro around
    simpa [Stmt.sites, Node.tokens] using
      ⟨ih condition around, ih' branch around, ih'' branch' around⟩
  -- The only tree whose shape is not that of the phrase: the loop is taken apart into others.
  | forStmt _ _ _ _ _ _ _ _ start condition increment body =>
    obtain ⟨-, -, first, second, -, third, -, last⟩ := all
    exact all_afterStart (start first) (condition second) (increment third) (body last)
  | number | string | trueLit | falseLit | nilLit =>
    exact fun around => (allIn_cons P _ _).mpr ⟨List.forall_mem_nil P, allIn_nil P⟩
  | this | reference =>
    exact fun around => (allIn_cons P _ _).mpr ⟨List.forall_mem_cons.mpr all, allIn_nil P⟩
  | super _ _ _ =>
    exact fun around => by simpa [Expr.sites, Node.tokens] using ⟨all.1, all.2.2.1⟩
  | assign _ _ _ ih =>
    exact fun around =>
      (allIn_cons P _ _).mpr ⟨List.forall_mem_singleton.mpr all.1, ih all.2.2 around⟩
  | get _ _ _ ih =>
    exact fun around =>
      (allIn_cons P _ _).mpr ⟨List.forall_mem_singleton.mpr all.2.2.1, ih all.1 around⟩
  | prefixed _ _ ih =>
    exact fun around =>
      (allIn_cons P _ _).mpr ⟨List.forall_mem_singleton.mpr all.1, ih all.2 around⟩
  | grouping _ _ _ ih =>
    exact fun around => (allIn_cons P _ _).mpr ⟨List.forall_mem_nil P, ih all.2.1 around⟩
  | set _ _ _ _ _ ih ih' =>
    obtain ⟨object, -, name, -, value⟩ := all
    exact fun around => (allIn_cons P _ _).mpr ⟨List.forall_mem_singleton.mpr name,
      (allIn_append P _ _).mpr ⟨ih' value around, ih object around⟩⟩
  | call _ _ _ _ ih ih' =>
    obtain ⟨callee, -, arguments, closing, -⟩ := all
    exact fun around => (allIn_cons P _ _).mpr ⟨List.forall_mem_singleton.mpr closing,
      (allIn_append P _ _).mpr ⟨ih callee around, ih' arguments around⟩⟩
  | @link tier _ _ _ _ _ _ _ _ _ ih ih' =>
    obtain ⟨left, operator, right⟩ := all
    intro around
    rw [tier.sites_node, allIn_cons, allIn_append]
    exact ⟨by cases tier <;> exact List.forall_mem_singleton.mpr operator, ih left around,
      ih' right around⟩

end Quill
