import Quill.Proofs.Grammar.Program
import Quill.Proofs.Resolution.Scoping
import Quill.Proofs.Session.Splitting
import Quill.Proofs.Tree.Shape

set_option autoImplicit false

namespace Quill

def Stmt.inherits : Stmt → Bool
  | .classDecl _ (some _) _ => true
  | _ => false

def NamedIn (sites : List Site) : Prop :=
  ∀ s ∈ sites, s.Named

theorem ShapedIn.named {sites : List Site} (shaped : ShapedIn sites) : NamedIn sites := by
  intro s mem name superclass methods same
  have node := shaped s mem
  rw [same] at node
  exact node.2.1 superclass rfl

theorem Derives.named {ts : List Token} {body : List Stmt} (derives : Derives .declarations ts body)
    (around : List Layer) : NamedIn (stmtSites around body) :=
  (derives.shaped around).named

/-- A program keeps the rules. -/
structure KeepsRules (program : List Stmt) : Prop where
  placed : ∀ s ∈ stmtSites [] program, s.Placed
  named : ∀ s ∈ stmtSites [] program, s.Scoped

theorem Error.Binding.kind {e : Error} (h : e.Binding) : e.isPlacement ∨ e.isScoping := by
  cases e with
  | binding fault _ =>
    cases scoping : fault.isScoping <;> simp [Error.isPlacement, Error.isScoping, scoping]
  | _ => cases h

theorem errors_nil_iff (program : List Stmt) :
    errorsIn (resolveProgram program) = [] ↔
      (errorsIn (resolveProgram program)).filter Error.isPlacement = [] ∧
      (errorsIn (resolveProgram program)).filter Error.isScoping = [] := by
  refine ⟨fun none => by simp [none], fun ⟨placed, named⟩ => ?_⟩
  rw [List.filter_eq_nil_iff] at placed named
  refine List.eq_nil_iff_forall_not_mem.mpr fun e mem => ?_
  have binding : e.Binding := by
    rw [errorsIn_resolveProgram, List.mem_reverse] at mem
    exact ((resolveStmts_local .top program).faults .start e mem).resolve_left nofun
  exact binding.kind.elim (placed e mem) (named e mem)

theorem placement_errors {program : List Stmt} (named : NamedIn (stmtSites [] program)) :
    (errorsIn (resolveProgram program)).filter Error.isPlacement =
      (stmtSites [] program).filterMap Site.fault? := by
  have reported := resolveStmts_reports .top program named .start
  rw [errorsIn_resolveProgram, List.filter_reverse]
  exact reported

theorem scoping_errors (program : List Stmt) :
    (errorsIn (resolveProgram program)).filter Error.isScoping = [] ↔
      ∀ s ∈ stmtSites [] program, s.Scoped := by
  have level : Resolution.start.Level [] := by simp [Resolution.Level, Resolution.start]
  have settled : Resolution.start.Settled := by
    intro name here
    cases here
  have quiet := (resolveStmts_declares .top [] program).quiet .start level settled
  rw [errorsIn_resolveProgram, List.filter_reverse, List.reverse_eq_nil_iff]
  exact quiet.trans (and_iff_left (.inl rfl))

/-- Resolution accepts exactly the parsed programs that keep the rules, and reports every site that
breaks a rule on where things stand once, in the order of the visit and whatever else is wrong. -/
theorem resolveProgram_accepts_rules {lo hi : RefId} {tokens : List Token} {program : List Stmt}
    (parsed : parseProgram lo tokens = .ok (program, hi)) :
    ((∃ table, resolveProgram program = .ok table) ↔ KeepsRules program) ∧
    (errorsIn (resolveProgram program)).filter Error.isPlacement =
      (stmtSites [] program).filterMap Site.fault? ∧
    ∀ s : Site, s.fault? = none ↔ s.Placed := by
  have named : NamedIn (stmtSites [] program) := (parseProgram_derives parsed).1.named []
  have placement := placement_errors named
  refine ⟨?_, placement, Site.fault?_eq_none_iff⟩
  have accepted : (∃ table, resolveProgram program = .ok table) ↔
      errorsIn (resolveProgram program) = [] := by
    refine ⟨fun ⟨table, ok⟩ => (resolveProgram_eq_ok.mp ok).1, fun none => ?_⟩
    exact ⟨_, resolveProgram_eq_ok.mpr ⟨none, rfl⟩⟩
  rw [accepted, errors_nil_iff, placement, scoping_errors, List.filterMap_eq_nil_iff]
  simp only [Site.fault?_eq_none_iff]
  exact ⟨fun ⟨placed, named⟩ => ⟨placed, named⟩, fun rules => ⟨rules.placed, rules.named⟩⟩

def misplacedTokens : List Token :=
  [symbolToken .classKw, nameToken "A", symbolToken .less, nameToken "A", symbolToken .leftBrace,
    nameToken "init", symbolToken .leftParen, symbolToken .rightParen, symbolToken .leftBrace,
    symbolToken .returnKw, symbolToken .superKw, symbolToken .dot, nameToken "x",
    symbolToken .semicolon, symbolToken .rightBrace, symbolToken .rightBrace,
    symbolToken .whileKw, symbolToken .leftParen, symbolToken .trueKw, symbolToken .rightParen,
    symbolToken .leftBrace, symbolToken .funKw, nameToken "f", symbolToken .leftParen,
    symbolToken .rightParen, symbolToken .leftBrace, symbolToken .breakKw, symbolToken .semicolon,
    symbolToken .rightBrace, symbolToken .breakKw, symbolToken .semicolon, symbolToken .rightBrace,
    ⟨.symbol .eof, "", 1⟩]

theorem resolveProgram_accepts_rules_misplaced :
    ∃ program hi, parseProgram 0 misplacedTokens = .ok (program, hi) ∧ ¬KeepsRules program ∧
      (errorsIn (resolveProgram program)).filter Error.isPlacement =
        [.binding .inheritsItself (nameToken "A"),
          .binding .returnValueFromInitializer (symbolToken .returnKw),
          .binding .breakOutsideLoop (symbolToken .breakKw)] := by
  have parsed : parseProgram 0 misplacedTokens =
      .ok ([.classDecl (nameToken "A") (some (.variable 0 (nameToken "A")))
          [⟨some (nameToken "init"), [], [.returnFrom (symbolToken .returnKw)
            (some (.super 1 (symbolToken .superKw) (nameToken "x")))]⟩],
        .loop (.literal (.boolean true))
          (.block [.function ⟨some (nameToken "f"), [], [.breakLoop (symbolToken .breakKw)]⟩,
            .breakLoop (symbolToken .breakKw)])], 2) := by cbv
  obtain ⟨accepts, reported, -⟩ := resolveProgram_accepts_rules parsed
  refine ⟨_, _, parsed, fun rules => ?_, reported⟩
  obtain ⟨table, ok⟩ := accepts.mpr rules
  rw [(resolveProgram_eq_ok.mp ok).1] at reported
  cases reported

end Quill
