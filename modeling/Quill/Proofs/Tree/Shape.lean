import Quill.Proofs.Grammar.Program
import Quill.Proofs.Resolution.Sites

set_option autoImplicit false

namespace Quill

/-- What a node says by itself, its parts apart. -/
def Node.Shaped : Node → Prop
  | .expr (.unary operator _) => [Symbol.bang, .minus].any operator.is
  | .expr (.binary _ operator _) => binarySymbols.any operator.is
  | .expr (.logical _ operator _) => [Symbol.andKw, .orKw].any operator.is
  | .expr (.variable _ name) | .expr (.assign _ name _) | .expr (.get _ name)
  | .expr (.set _ name _) => name.is .identifier
  | .expr (.this _ keyword) => keyword.is .thisKw
  | .expr (.super _ keyword method) => keyword.is .superKw ∧ method.is .identifier
  | .expr (.call _ paren arguments) => paren.is .rightParen ∧ arguments.length ≤ 255
  | .expr (.function f) => f.name = none
  | .expr (.literal _) | .expr (.grouping _) => True
  | .stmt (.var name _) => name.is .identifier
  | .stmt (.conditional _ thenBranch elseBranch) =>
    thenBranch.declares = false ∧ ∀ s ∈ elseBranch, s.declares = false
  | .stmt (.loop _ body) => body.declares = false
  | .stmt (.breakLoop keyword) => keyword.is .breakKw
  | .stmt (.returnFrom keyword _) => keyword.is .returnKw
  | .stmt (.function f) => ∃ name, f.name = some name
  | .stmt (.classDecl name superclass methods) =>
    name.is .identifier ∧ (∀ e ∈ superclass, ∃ id superName, e = .variable id superName) ∧
      ∀ f ∈ methods, ∃ methodName, f.name = some methodName
  | .stmt (.expression _) | .stmt (.print _) | .stmt (.block _) => True
  | .routine f =>
    (∀ name ∈ f.name, name.is .identifier) ∧ f.params.length ≤ 255 ∧
      ∀ param ∈ f.params, param.is .identifier

def ShapedIn (sites : List Site) : Prop :=
  ∀ s ∈ sites, s.node.Shaped

@[simp] theorem shapedIn_nil : ShapedIn [] :=
  fun _ mem => by cases mem

@[simp] theorem shapedIn_append (a b : List Site) :
    ShapedIn (a ++ b) ↔ ShapedIn a ∧ ShapedIn b :=
  List.forall_mem_append

@[simp] theorem shapedIn_cons (s : Site) (a : List Site) :
    ShapedIn (s :: a) ↔ s.node.Shaped ∧ ShapedIn a :=
  List.forall_mem_cons

def Phrase.Shaped : (p : Phrase) → p.Tree → Prop
  | .declarations, body | .block, body => ∀ around, ShapedIn (stmtSites around body)
  | .declaration _, s | .varDecl, s => ∀ around, ShapedIn (s.sites around)
  | .statement _, s | .exprStmt, s => s.declares = false ∧ ∀ around, ShapedIn (s.sites around)
  | .superclass, e =>
    ∀ superclass ∈ e, ∃ id name, superclass = .variable id name ∧ name.is .identifier
  | .function, f => (∃ name, f.name = some name) ∧ ∀ around, ShapedIn (f.sites around)
  | .functions, fs =>
    (∀ f ∈ fs, ∃ name, f.name = some name) ∧
      ∀ around inherits, ShapedIn (methodSites around inherits fs)
  | .parameters, params => params.length ≤ 255 ∧ ∀ param ∈ params, param.is .identifier
  | .names, params => ∀ param ∈ params, param.is .identifier
  | .forStart, start => ∀ s ∈ start, ∀ around, ShapedIn (s.sites around)
  | .optional, value => ∀ e ∈ value, ∀ around, ShapedIn (e.sites around)
  | .expression, e | .chain _, e | .unary, e | .call, e | .primary, e =>
    ∀ around, ShapedIn (e.sites around)
  | .arguments, es => es.length ≤ 255 ∧ ∀ around, ShapedIn (exprSites around es)
  | .expressions, es => ∀ around, ShapedIn (exprSites around es)

theorem Tier.shaped_node {tier : Tier} {left right : Expr} {operator : Token}
    (hop : tier.symbols.any operator.is) : (Node.expr (tier.node left operator right)).Shaped := by
  have among {symbols : List Symbol} (sub : tier.symbols ⊆ symbols) : symbols.any operator.is := by
    obtain ⟨s, mem, hit⟩ := List.any_eq_true.mp hop
    exact List.any_eq_true.mpr ⟨s, sub mem, hit⟩
  cases tier <;> exact among (by decide)

theorem Tier.sites_node (tier : Tier) (left right : Expr) (operator : Token)
    (around : List Layer) : (tier.node left operator right).sites around =
      ⟨around, .expr (tier.node left operator right)⟩ ::
        (left.sites around ++ right.sites around) := by
  cases tier <;> rfl

theorem shaped_afterStart {start : Option Stmt} {condition increment : Option Expr} {body : Stmt}
    (hstart : Phrase.forStart.Shaped start) (hcondition : Phrase.optional.Shaped condition)
    (hincrement : Phrase.optional.Shaped increment) (hdeclares : body.declares = false)
    (hbody : ∀ around, ShapedIn (body.sites around)) (dangling : Bool) :
    (Phrase.statement dangling).Shaped
      (afterStart (.loop (conditionOr (.literal (.boolean true)) condition)
        (withIncrement body increment)) start) := by
  have first (around : List Layer) :
      ShapedIn ((conditionOr (.literal (.boolean true)) condition).sites around) := by
    cases condition with
    | none => exact (shapedIn_cons _ _).mpr ⟨trivial, shapedIn_nil⟩
    | some e => exact hcondition e rfl around
  -- With an increment the body of the loop is a block of its own.
  have round : (withIncrement body increment).declares = false ∧
      ∀ around, ShapedIn ((withIncrement body increment).sites around) := by
    cases increment with
    | none => exact ⟨hdeclares, hbody⟩
    | some e =>
      refine ⟨rfl, fun around => ?_⟩
      simpa [withIncrement, Stmt.sites, stmtSites, Node.Shaped] using
        ⟨hbody (.block :: around), hincrement e rfl (.block :: around)⟩
  have loop (around : List Layer) :
      ShapedIn ((Stmt.loop (conditionOr (.literal (.boolean true)) condition)
        (withIncrement body increment)).sites around) := by
    simpa [Stmt.sites, Node.Shaped] using ⟨round.1, first around, round.2 (.loop :: around)⟩
  cases start with
  | none => exact ⟨rfl, loop⟩
  | some s =>
    refine ⟨rfl, fun around => ?_⟩
    refine (shapedIn_cons _ _).mpr ⟨trivial, (shapedIn_append _ _).mpr ⟨hstart s rfl _, ?_⟩⟩
    exact (shapedIn_append _ _).mpr ⟨loop (.block :: around), shapedIn_nil⟩

theorem Derives.shaped {p : Phrase} {ts : List Token} {x : p.Tree} (h : Derives p ts x) :
    p.Shaped x := by
  -- The layers around a phrase are not known where it is derived, so its sites are shaped in any.
  induction h with
  | noDeclarations => exact fun _ => shapedIn_nil
  | noFunctions => exact ⟨nofun, fun _ _ => shapedIn_nil⟩
  | noArguments => exact ⟨Nat.zero_le _, fun _ => shapedIn_nil⟩
  | noParameters => exact ⟨Nat.zero_le _, nofun⟩
  | noSuperclass | noStart | absent => exact nofun
  | superclass _ hname =>
    rintro _ ⟨⟩
    exact ⟨_, _, rfl, hname⟩
  | startVar _ ih | present _ ih =>
    rintro _ ⟨⟩
    exact ih
  | startExpr _ ih =>
    rintro _ ⟨⟩
    exact ih.2
  | lastName hname => simpa [Phrase.Shaped] using hname
  | moreNames hname _ _ ih => exact List.forall_mem_cons.mpr ⟨hname, ih⟩
  | parameters _ short ih => exact ⟨short, ih⟩
  | arguments _ short ih => exact ⟨short, ih⟩
  | varDecl _ ih | exprStmt _ ih | block _ _ _ ih | operators _ ih | operand _ ih | tightest _ ih
  | unprefixed _ ih | callee _ ih => exact ih
  | statement _ ih => exact ih.2
  | moreDeclarations _ _ ih ih' | moreExpressions _ _ _ ih ih' =>
    exact fun around => (shapedIn_append _ _).mpr ⟨ih around, ih' around⟩
  | lastExpression _ ih =>
    exact fun around => (shapedIn_append _ _).mpr ⟨ih around, shapedIn_nil⟩
  | moreFunctions _ _ ih ih' =>
    refine ⟨List.forall_mem_cons.mpr ⟨ih.1, ih'.1⟩, fun around inherits => ?_⟩
    exact (shapedIn_append _ _).mpr ⟨ih.2 _, ih'.2 around inherits⟩
  | @classDecl _ _ _ _ _ _ parent _ _ hname _ _ _ _ ih ih' =>
    intro around
    -- Whether there is a superclass says whether the methods stand in a class that inherits.
    cases parent with
    | none => exact (shapedIn_cons _ _).mpr ⟨⟨hname, nofun, ih'.1⟩, ih'.2 around false⟩
    | some superclass =>
      obtain ⟨id, superName, rfl, hsuper⟩ := ih superclass rfl
      refine (shapedIn_cons _ _).mpr ⟨⟨hname, ?_, ih'.1⟩, ?_⟩
      · rintro _ ⟨⟩
        exact ⟨id, superName, rfl⟩
      · simpa [Expr.sites, Node.Shaped, hsuper] using ih'.2 around true
  | funDecl _ _ ih =>
    exact fun around => (shapedIn_cons _ _).mpr ⟨ih.1, ih.2 (.function :: around)⟩
  | function hname _ _ _ _ ih ih' =>
    refine ⟨⟨_, rfl⟩, fun around => (shapedIn_cons _ _).mpr ⟨⟨?_, ih⟩, ih' around⟩⟩
    rintro _ ⟨⟩
    exact hname
  | anonymous _ _ _ _ _ ih ih' =>
    refine fun around => (shapedIn_cons _ _).mpr ⟨rfl, ?_⟩
    exact (shapedIn_cons _ _).mpr ⟨⟨nofun, ih⟩, ih' (.anonymous :: around)⟩
  | bareVar _ hname => exact fun around => (shapedIn_cons _ _).mpr ⟨hname, shapedIn_nil⟩
  | varWith _ hname _ _ _ ih => exact fun around => (shapedIn_cons _ _).mpr ⟨hname, ih around⟩
  | expressionStatement _ _ ih | printStmt _ _ _ ih =>
    exact ⟨rfl, fun around => (shapedIn_cons _ _).mpr ⟨trivial, ih around⟩⟩
  | blockStmt _ ih =>
    exact ⟨rfl, fun around => (shapedIn_cons _ _).mpr ⟨trivial, ih (.block :: around)⟩⟩
  | breakStmt hk => exact ⟨rfl, fun around => (shapedIn_cons _ _).mpr ⟨hk, shapedIn_nil⟩⟩
  | @returnStmt _ _ _ value hk _ _ ih =>
    refine ⟨rfl, fun around => ?_⟩
    cases value with
    | none => exact (shapedIn_cons _ _).mpr ⟨hk, shapedIn_nil⟩
    | some e => exact (shapedIn_cons _ _).mpr ⟨hk, ih e rfl around⟩
  | whileStmt _ _ _ _ _ ih ih' =>
    refine ⟨rfl, fun around => (shapedIn_cons _ _).mpr ⟨ih'.1, ?_⟩⟩
    exact (shapedIn_append _ _).mpr ⟨ih around, ih'.2 (.loop :: around)⟩
  | ifStmt _ _ _ _ _ ih ih' =>
    refine ⟨rfl, fun around => (shapedIn_cons _ _).mpr ⟨⟨ih'.1, nofun⟩, ?_⟩⟩
    exact (shapedIn_append _ _).mpr ⟨ih around, ih'.2 around⟩
  | ifElseStmt _ _ _ _ _ _ _ ih ih' ih'' =>
    refine ⟨rfl, fun around => (shapedIn_cons _ _).mpr ⟨⟨ih'.1, ?_⟩, ?_⟩⟩
    · rintro _ ⟨⟩
      exact ih''.1
    · simp only [shapedIn_append]
      exact ⟨ih around, ih'.2 around, ih''.2 around⟩
  | forStmt _ _ _ _ _ _ _ _ start condition increment body =>
    exact shaped_afterStart start condition increment body.1 body.2 _
  | number | string | trueLit | falseLit | nilLit =>
    exact fun around => (shapedIn_cons _ _).mpr ⟨trivial, shapedIn_nil⟩
  | this ht | reference ht => exact fun around => (shapedIn_cons _ _).mpr ⟨ht, shapedIn_nil⟩
  | super hk _ hm => exact fun around => (shapedIn_cons _ _).mpr ⟨⟨hk, hm⟩, shapedIn_nil⟩
  | assign hname _ _ ih => exact fun around => (shapedIn_cons _ _).mpr ⟨hname, ih around⟩
  | get _ _ hname ih => exact fun around => (shapedIn_cons _ _).mpr ⟨hname, ih around⟩
  | prefixed hop _ ih => exact fun around => (shapedIn_cons _ _).mpr ⟨hop, ih around⟩
  | grouping _ _ _ ih => exact fun around => (shapedIn_cons _ _).mpr ⟨trivial, ih around⟩
  | set _ _ hname _ _ ih ih' =>
    refine fun around => (shapedIn_cons _ _).mpr ⟨hname, ?_⟩
    exact (shapedIn_append _ _).mpr ⟨ih' around, ih around⟩
  | call _ _ _ hclose ih ih' =>
    refine fun around => (shapedIn_cons _ _).mpr ⟨⟨hclose, ih'.1⟩, ?_⟩
    exact (shapedIn_append _ _).mpr ⟨ih around, ih'.2 around⟩
  | @link tier _ _ _ _ _ _ _ hop _ ih ih' =>
    intro around
    rw [tier.sites_node]
    exact (shapedIn_cons _ _).mpr ⟨tier.shaped_node hop, (shapedIn_append _ _).mpr ⟨ih around, ih' around⟩⟩

/-- Every node of a tree that was parsed, at any depth, has the shape that is relied on later. -/
theorem parsed_shaped (lo : RefId) (tokens : List Token) :
    (∀ program hi, parseProgram lo tokens = .ok (program, hi) →
      ∀ s ∈ stmtSites [] program, s.node.Shaped) ∧
    ∀ e hi, parseExpression lo tokens = .ok (e, hi) → ∀ s ∈ e.sites [], s.node.Shaped :=
  ⟨fun _ _ parsed => (parseProgram_derives parsed).1.shaped [],
    fun _ _ parsed => (parseExpression_derives parsed).1.shaped []⟩

def branching : List Token :=
  [symbolToken .funKw, symbolToken .leftParen, nameToken "a", symbolToken .rightParen,
    symbolToken .leftBrace, symbolToken .ifKw, symbolToken .leftParen, nameToken "a",
    symbolToken .rightParen, nameToken "b", symbolToken .equal, symbolToken .minus, nameToken "a",
    symbolToken .orKw, nameToken "c", symbolToken .semicolon, symbolToken .rightBrace]

def branchingProgram : List Token :=
  [symbolToken .classKw, nameToken "A", symbolToken .less, nameToken "B", symbolToken .leftBrace,
    symbolToken .rightBrace, symbolToken .varKw, nameToken "d", symbolToken .equal] ++
    branching ++ [symbolToken .semicolon]

theorem parsed_shaped_branching :
    (∃ program hi, parseProgram 0 (branchingProgram ++ [⟨.symbol .eof, "", 1⟩]) =
      .ok (program, hi) ∧ (stmtSites [] program).length = 13 ∧
        ∀ s ∈ stmtSites [] program, s.node.Shaped) ∧
    ∃ e hi, parseExpression 0 (branching ++ [⟨.symbol .eof, "", 1⟩]) = .ok (e, hi) ∧
      (e.sites []).length = 10 ∧ ∀ s ∈ e.sites [], s.node.Shaped := by
  let f (id : RefId) : Function := ⟨none, [nameToken "a"], [.conditional
    (.variable id (nameToken "a"))
    (.expression (.assign (id + 4) (nameToken "b") (.logical
      (.unary (symbolToken .minus) (.variable (id + 2) (nameToken "a"))) (symbolToken .orKw)
      (.variable (id + 3) (nameToken "c"))))) none]⟩
  have parsed : parseProgram 0 (branchingProgram ++ [⟨.symbol .eof, "", 1⟩]) =
      .ok ([.classDecl (nameToken "A") (some (.variable 0 (nameToken "B"))) [],
        .var (nameToken "d") (some (.function (f 1)))], 6) := by cbv
  have alone : parseExpression 0 (branching ++ [⟨.symbol .eof, "", 1⟩]) =
      .ok (.function (f 0), 5) := by cbv
  exact ⟨⟨_, _, parsed, rfl, (parsed_shaped 0 _).1 _ _ parsed⟩,
    ⟨_, _, alone, rfl, (parsed_shaped 0 _).2 _ _ alone⟩⟩

end Quill
