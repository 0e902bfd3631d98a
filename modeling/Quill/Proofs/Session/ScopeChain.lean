import Quill.Proofs.Grammar.Program
import Quill.Proofs.Session.History

set_option autoImplicit false

namespace Quill

/-- The scopes of a machine, from the current one outward, stand one for one for those around a
visit, and behind them lie the globals. Each of them binds all that was recorded by then, but for
names that are awaited, and never anything that is not recorded at all. -/
structure Machine.Mirrors (m : Machine) (v : Visit) (awaited : Pending) : Prop where
  depth : m.heap.ancestor? m.scope v.state.scopes.length = some m.globals
  outermost : m.heap.parent? m.globals = none
  scopes : ∀ i scope, v.state.scopes[i]? = some scope →
    ∃ s frame, m.heap.ancestor? m.scope i = some s ∧ s ≠ m.globals ∧ v.frames[i]? = some frame ∧
      (∀ x, scope.contains x → m.heap.Binds s x ∨ awaited s x) ∧
      ∀ x, m.heap.Binds s x → frame.Records x

theorem Here.mirrors {S : Setting} {p : Pending} {w : World} {m : Machine} {v : Visit}
    (here : Here S p w m v) : m.Mirrors v p := by
  have globals := here.stands.globals
  have sound := here.stands.sound
  refine ⟨?_, ?_, fun i scope at' => ?_⟩
  · rw [globals]
    exact here.chain.outermost
  · rw [globals]
    exact sound.outermost
  · have lt : i < v.frames.length := here.chain.length ▸ (List.getElem?_eq_some_iff.mp at').1
    obtain ⟨s, scope', reached, at'', found, ⟨q, link⟩, names⟩ :=
      here.chain.reach (List.getElem?_eq_getElem lt)
    rw [at'] at at''
    cases at''
    have inner : s ≠ S.globals := by
      rintro rfl
      rw [sound.outermost] at link
      cases link
    exact ⟨s, _, reached, globals ▸ inner, List.getElem?_eq_getElem lt, names,
      fun x => sound.names s _ x inner found⟩

def Task.reference? : Task → Option (RefId × String)
  | .expr (.variable id name) | .expr (.assign id name _) => some (id, name.lexeme)
  | .expr (.this id keyword) | .expr (.super id keyword _) => some (id, keyword.lexeme)
  | _ => none

theorem Here.distance {S : Setting} {p : Pending} {w : World} {m : Machine} {v : Visit}
    (here : Here S p w m v) {t : Task} {id : RefId} {x : String}
    (piece : t.piece? = some v.piece) (reference : t.reference? = some (id, x)) :
    m.distances[id]? = v.state.distance? x := by
  rw [here.stands.table]
  obtain ⟨ctx, owner, state, frames, _⟩ := v
  cases t with
  | stmt s => cases reference
  | call | act => cases reference
  | expr e =>
    cases piece
    have ok := here.ok
    cases e with
    | «variable» id' name =>
      cases reference
      exact ok.variable_distance
    | assign id' name e =>
      cases reference
      exact ok.assign_distance
    -- The name looked up is that of the keyword, which a well-formed tree fixes.
    | this id' keyword =>
      cases reference
      have word : keyword.lexeme = "this" := ok.wellFormed
      obtain ⟨inner, -, -, found, table⟩ := ok.this_distance
      change _ = state.distance? keyword.lexeme
      rw [word, found, table]
    | super id' keyword method =>
      cases reference
      have word : keyword.lexeme = "super" := ok.wellFormed
      obtain ⟨inner, -, -, -, -, -, found, table⟩ := ok.super_distance
      change _ = state.distance? keyword.lexeme
      rw [word, found, table]
    | _ => cases reference

/-- At every moment of every run the scopes are those that resolution had open around the same
code. So what it recorded for a reference leads to the scope it chose. -/
theorem Session.Reached.mirrors_walk {s : Session} {earlier : List Episode}
    (reached : s.Reached earlier) {source : List UInt8} {prepared : Prepared (List Stmt)}
    (prepares : prepareProgram s.nextId source = .ok prepared) {fuel : Nat} {a : Moment}
    {around : List Moment} (path : (s.episode fuel prepared).Path (a :: around)) :
    ∃ r ∈ s.episode fuel prepared :: earlier, ∃ v, Visits r.program v ∧
      a.task.piece? = some v.piece ∧
      a.machine.Mirrors v (Awaited (CutOffIn earlier) around) ∧
      ∀ id x, a.task.reference? = some (id, x) →
        a.machine.distances[id]? = v.state.distance? x ∧
        ∀ d, a.machine.distances[id]? = some d →
          ∃ scope t, v.state.scopes[d]? = some scope ∧ scope.contains x ∧
            a.machine.heap.ancestor? a.machine.scope d = some t ∧ t ≠ a.machine.globals := by
  have steady := reached.steady
  have accepted := prepareProgram_accepted prepares
  obtain ⟨w, start⟩ := steady.start accepted fuel
  obtain ⟨v, w', piece, here⟩ := (steady.covered accepted fuel).here start path
  obtain ⟨r, mem, visits⟩ := (steady.setting_of accepted fuel).known v here.known
  refine ⟨r, mem, v, visits, piece, here.mirrors, fun id x reference => ?_⟩
  have distance := here.distance piece reference
  refine ⟨distance, fun d found => ?_⟩
  rw [distance] at found
  obtain ⟨lt, hit, -⟩ := List.findIdx?_eq_some_iff_getElem.mp found
  obtain ⟨t, -, reached', inner, -⟩ := here.mirrors.scopes d _ (List.getElem?_eq_getElem lt)
  exact ⟨_, t, List.getElem?_eq_getElem lt, hit, reached', inner⟩

def namedInBlock : List UInt8 :=
  "{ var a; a; }".toUTF8.data.toList

theorem mirrors_walk_namedInBlock :
    ∃ prepared m around, prepareProgram 0 namedInBlock = .ok prepared ∧
      ((Session.start .unlimited 0).episode 3 prepared).Path
        (⟨1, .expr (.variable 0 (nameToken "a")), m⟩ :: around) ∧
      m.distances[0]? = some 0 ∧
      ∃ t, m.heap.ancestor? m.scope 0 = some t ∧ t ≠ m.globals := by
  let name : Expr := .variable 0 (nameToken "a")
  let block : Stmt := .block [.var (nameToken "a") none, .expression name]
  let prepared : Prepared (List Stmt) := ⟨[block], ({} : Distances).insert 0 0, 1⟩
  let start := ((Session.start .unlimited 0).episode 3 prepared).machine
  let opened := { start with heap := start.heap.addScope ⟨{}, some start.scope⟩, scope := 1 }
  let declared := machineOf ((Evaluator.withFuel 2).exec (.var (nameToken "a") none) opened)
  have prepares : prepareProgram 0 namedInBlock = .ok prepared := by cbv
  have declares : (Evaluator.withFuel 2).exec (.var (nameToken "a") none) opened =
      .ok .normal declared := by cbv
  have path : ((Session.start .unlimited 0).episode 3 prepared).Path
      [⟨1, .expr name, declared⟩, ⟨2, .stmt (.expression name), declared⟩,
        ⟨3, .stmt block, start⟩] := by
    refine .part (.part (.first ⟨rfl, ?_⟩) ⟨rfl, ?_⟩) ⟨rfl, ?_⟩
    · exact .bind (.task (.stmt block))
    · refine .const_bind rfl (.const_bind rfl (.inScope (.bind_ok (.exec _) declares ?_)))
      exact .bind (.task (.stmt (.expression name)))
    · exact .bind (.task (.expr name))
  have reached : (Session.start .unlimited 0).Reached [] := .start .unlimited 0 256
  have distance : declared.distances[0]? = some 0 := by cbv
  obtain ⟨_, _, _, _, _, _, leads⟩ := reached.mirrors_walk prepares path
  obtain ⟨_, t, _, _, ancestor, inner⟩ := (leads 0 "a" rfl).2 0 distance
  exact ⟨prepared, declared, _, prepares, path, distance, t, ancestor, inner⟩

end Quill
