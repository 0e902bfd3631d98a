import Quill.Proofs.Grammar.Invariants
import Quill.Proofs.Simulation.Run
import Quill.Session

set_option autoImplicit false

namespace Quill

def Session.episode (s : Session) (fuel : Nat) (prepared : Prepared (List Stmt)) : Episode :=
  ⟨fuel, prepared.tree,
    { s.machine with distances := s.machine.distances.merge prepared.distances }⟩

/-- A session that comes about from one with nothing but the clock, and the runs on the way, the
latest first. -/
inductive Session.Reached : Session → List Episode → Prop where
  | start (sink : Sink) (clock : Clock) (maxDepth : Nat) :
      Reached ((Session.start sink clock).withMaxDepth maxDepth) []
  | rejected {s : Session} {earlier : List Episode} {source : List UInt8} {errors : List Error}
      (fuel : Nat) : Reached s earlier → prepareProgram s.nextId source = .error errors →
      Reached (s.run fuel source).2 earlier
  | accepted {s : Session} {earlier : List Episode} {source : List UInt8}
      {prepared : Prepared (List Stmt)} {fuel : Nat} : Reached s earlier →
      prepareProgram s.nextId source = .ok prepared → (s.run fuel source).1 ≠ .unfinished →
      Reached (s.run fuel source).2 (s.episode fuel prepared :: earlier)

/-- Variables whose initializer failed in one of the runs. -/
def CutOffIn (earlier : List Episode) : Pending :=
  fun s x => ∃ r ∈ earlier, r.CutOff s x

/-- Where `super` is written in the programs of some runs, and in which class declarations. -/
def superSitesIn (episodes : List Episode) : List (RefId × Stmt) :=
  episodes.flatMap fun r => stmtSuperSites none r.program

theorem Session.run_eq {s : Session} {source : List UInt8} {prepared : Prepared (List Stmt)}
    (fuel : Nat) (accepted : prepareProgram s.nextId source = .ok prepared) :
    s.run fuel source =
      match (s.episode fuel prepared).result with
      | .ok () m =>
        (if m.sink.flushFails then .failed [.io .flushFailed] else .done (), ⟨m, prepared.nextId⟩)
      | .error (.error e) m =>
        (.failed [if m.sink.flushFails then .io .flushFailed else e], ⟨m, prepared.nextId⟩)
      | .error .outOfFuel m => (.unfinished, ⟨m, prepared.nextId⟩) := by
  have start : { s.machine with distances := s.machine.distances.merge prepared.distances } =
      (s.episode fuel prepared).machine := rfl
  have runs : runTopLevel (.withFuel fuel) prepared.tree (s.episode fuel prepared).machine =
      (s.episode fuel prepared).result := rfl
  unfold run perform interpret
  rw [accepted]
  simp only [start, runs]
  cases (s.episode fuel prepared).result with
  | ok _ m => cases flush : m.sink.flushFails <;> simp [flush]
  | error halt m => cases halt <;> rfl

theorem Visit.Ok.in_sites {table : Distances} {sites sites' : List (RefId × Stmt)} {v : Visit}
    (ok : v.Ok table sites) (sub : sites ⊆ sites') : v.Ok table sites' :=
  { ok with sites := fun site mem => sub (ok.sites site mem) }

theorem Accepted.distances_outside {lo : RefId} {prepared : Prepared (List Stmt)}
    (accepted : Accepted lo prepared) {id : RefId} (outside : id < lo ∨ prepared.nextId ≤ id) :
    prepared.distances[id]? = none := by
  obtain ⟨-, distances⟩ := Resolution.result_ok accepted.resolved
  have walk := (resolveStmts_walks .top prepared.tree .start accepted.wellFormed).walks
  rw [← distances, walk.distances id]
  · rfl
  · intro mem
    have range := accepted.numbered.mem id mem
    rcases outside with lt | le
    · exact Nat.not_le_of_lt lt range.1
    · exact Nat.not_le_of_lt range.2 le

theorem Distances.getElem?_merge (old new : Distances) (id : RefId) :
    (old.merge new)[id]? = new[id]?.or old[id]? := by
  unfold merge
  exact Std.TreeMap.getElem?_union

structure Setting.Of (S : Setting) (episodes : List Episode) : Prop where
  known : ∀ v, S.Known v → ∃ r ∈ episodes, Visits r.program v
  made : ∀ t c declaration, S.Made t c declaration → ∃ r ∈ episodes, r.Opens t c declaration
  sites : S.sites = superSitesIn episodes

structure Session.Steady (s : Session) (earlier : List Episode) : Prop where
  programs : ∀ r ∈ earlier, ∃ lo prepared, Accepted lo prepared ∧ prepared.tree = r.program ∧
    prepared.nextId ≤ s.nextId ∧
    ∀ id ∈ (Piece.stmts prepared.tree).ids, s.machine.distances[id]? = prepared.distances[id]?
  fresh : ∀ id, s.nextId ≤ id → s.machine.distances[id]? = none
  distinct : ((superSitesIn earlier).map Prod.fst).Nodup
  scope : s.machine.scope = s.machine.globals
  sound : ∃ S w, S.globals = s.machine.globals ∧ S.Of earlier ∧
    Sound S (CutOffIn earlier) w s.machine.heap

namespace Session.Steady

variable {s : Session} {earlier : List Episode} {prepared : Prepared (List Stmt)}

theorem merged_new (steady : s.Steady earlier) (accepted : Accepted s.nextId prepared) {id : RefId}
    (mem : id ∈ (Piece.stmts prepared.tree).ids) :
    (s.machine.distances.merge prepared.distances)[id]? = prepared.distances[id]? := by
  rw [Distances.getElem?_merge, steady.fresh id (accepted.numbered.mem id mem).1, Option.or_none]

theorem merged_old (accepted : Accepted s.nextId prepared) {id : RefId} (lt : id < s.nextId) :
    (s.machine.distances.merge prepared.distances)[id]? = s.machine.distances[id]? := by
  rw [Distances.getElem?_merge, accepted.distances_outside (.inl lt), Option.none_or]

theorem visits_ok (steady : s.Steady earlier) (accepted : Accepted s.nextId prepared) (fuel : Nat)
    {r : Episode} (mem : r ∈ s.episode fuel prepared :: earlier) {v : Visit}
    (visits : Visits r.program v) :
    v.Ok (s.episode fuel prepared).machine.distances
      (superSitesIn (s.episode fuel prepared :: earlier)) := by
  have sub : stmtSuperSites none r.program ⊆ superSitesIn (s.episode fuel prepared :: earlier) :=
    fun site hit => List.mem_flatMap.mpr ⟨r, mem, hit⟩
  rcases List.mem_cons.mp mem with rfl | old
  · exact (visits.ok accepted fun id => steady.merged_new accepted).in_sites sub
  · obtain ⟨lo, prepared', accepted', same, le, agree⟩ := steady.programs r old
    rw [← same] at visits sub
    refine (visits.ok accepted' fun id hit => ?_).in_sites sub
    have lt := Nat.lt_of_lt_of_le (accepted'.numbered.mem id hit).2 le
    exact (merged_old accepted lt).trans (agree id hit)

def setting (steady : s.Steady earlier) (accepted : Accepted s.nextId prepared) (fuel : Nat) :
    Setting where
  globals := s.machine.globals
  table := (s.episode fuel prepared).machine.distances
  sites := superSitesIn (s.episode fuel prepared :: earlier)
  Known v := ∃ r ∈ s.episode fuel prepared :: earlier, Visits r.program v
  Made t c declaration := ∃ r ∈ s.episode fuel prepared :: earlier, r.Opens t c declaration
  ok := by
    rintro v ⟨r, mem, visits⟩
    exact steady.visits_ok accepted fuel mem visits
  parts := by
    rintro v part ⟨r, mem, visits⟩ isPart
    exact ⟨r, mem, .part visits isPart⟩

theorem setting_of (steady : s.Steady earlier) (accepted : Accepted s.nextId prepared)
    (fuel : Nat) : (steady.setting accepted fuel).Of (s.episode fuel prepared :: earlier) :=
  ⟨fun _ known => known, fun _ _ _ made => made, rfl⟩

theorem start (steady : s.Steady earlier) (accepted : Accepted s.nextId prepared) (fuel : Nat) :
    ∃ w, Here (steady.setting accepted fuel) (Awaited (CutOffIn earlier) []) w
      (s.episode fuel prepared).machine (.top prepared.tree) := by
  obtain ⟨S, w, globals, of, sound⟩ := steady.sound
  have le : S.Le (steady.setting accepted fuel) := by
    refine ⟨globals.symm, fun v known => ?_, fun t c declaration made => ?_⟩
    · obtain ⟨r, mem, visits⟩ := of.known v known
      exact ⟨r, List.mem_cons_of_mem _ mem, visits⟩
    · obtain ⟨r, mem, opens⟩ := of.made t c declaration made
      exact ⟨r, List.mem_cons_of_mem _ mem, opens⟩
  have sound' : Sound (steady.setting accepted fuel) (Awaited (CutOffIn earlier) []) w
      s.machine.heap :=
    (sound.transfer le).settle fun t x cut => .inl (.inl cut)
  exact ⟨w, ⟨sound', rfl, rfl⟩, ⟨_, List.mem_cons_self, .top⟩, steady.scope⟩

theorem covered (steady : s.Steady earlier) (accepted : Accepted s.nextId prepared) (fuel : Nat) :
    (s.episode fuel prepared).Covered (steady.setting accepted fuel) (CutOffIn earlier)
      (s.episode fuel prepared).CutOff ((s.episode fuel prepared).Premature (CutOffIn earlier)) :=
  ⟨fun _ _ cut => cut, fun premature => premature, fun _ _ _ opens => ⟨_, List.mem_cons_self, opens⟩⟩

theorem distinct_next (steady : s.Steady earlier) (accepted : Accepted s.nextId prepared)
    (fuel : Nat) : ((superSitesIn (s.episode fuel prepared :: earlier)).map Prod.fst).Nodup := by
  have own := stmtSuperSites_ids none prepared.tree
  have nodup : ((stmtSuperSites none prepared.tree).map Prod.fst).Nodup :=
    own.nodup accepted.numbered.nodup
  change ((stmtSuperSites none prepared.tree ++ superSitesIn earlier).map Prod.fst).Nodup
  rw [List.map_append, List.nodup_append]
  refine ⟨nodup, steady.distinct, ?_⟩
  -- The references of the new program are numbered behind all earlier ones.
  rintro id new id' old rfl
  obtain ⟨site, mem, rfl⟩ := List.mem_map.mp old
  obtain ⟨r, mem', hit⟩ := List.mem_flatMap.mp mem
  obtain ⟨lo, prepared', accepted', same, le', -⟩ := steady.programs r mem'
  rw [← same] at hit
  have low := (accepted.numbered.mem _ (own.subset new)).1
  have high := (accepted'.numbered.mem _
    ((stmtSuperSites_ids none prepared'.tree).subset (List.mem_map_of_mem hit))).2
  exact Nat.not_le_of_lt (Nat.lt_of_lt_of_le high le') low

theorem next (steady : s.Steady earlier) (accepted : Accepted s.nextId prepared) {fuel : Nat}
    {m : Machine} {w : World} {p : Pending}
    (steps : ∃ w', Steps w' w (s.episode fuel prepared).machine m)
    (stands : Stands (steady.setting accepted fuel) p w m)
    (settles : ∀ t x, p t x → CutOffIn (s.episode fuel prepared :: earlier) t x) :
    Session.Steady ⟨m, prepared.nextId⟩ (s.episode fuel prepared :: earlier) := by
  obtain ⟨w', steps⟩ := steps
  have le : s.nextId ≤ prepared.nextId := accepted.numbered.le
  have table : m.distances = s.machine.distances.merge prepared.distances := steps.distances
  refine ⟨fun r mem => ?_, fun id outside => ?_, ?_, ?_, ?_⟩
  · rcases List.mem_cons.mp mem with rfl | old
    · refine ⟨s.nextId, prepared, accepted, rfl, Nat.le_refl _, fun id hit => ?_⟩
      exact (congrArg (·[id]?) table).trans (steady.merged_new accepted hit)
    · obtain ⟨lo, prepared', accepted', same, le', agree⟩ := steady.programs r old
      refine ⟨lo, prepared', accepted', same, Nat.le_trans le' le, fun id hit => ?_⟩
      have lt := Nat.lt_of_lt_of_le (accepted'.numbered.mem id hit).2 le'
      exact ((congrArg (·[id]?) table).trans (merged_old accepted lt)).trans (agree id hit)
  · refine (congrArg (·[id]?) table).trans ?_
    rw [Distances.getElem?_merge, accepted.distances_outside (.inr outside),
      steady.fresh id (Nat.le_trans le outside), Option.none_or]
  · exact steady.distinct_next accepted fuel
  · exact steps.scope.trans (steady.scope.trans steps.globals.symm)
  · refine ⟨steady.setting accepted fuel, w, stands.globals.symm, steady.setting_of accepted fuel, ?_⟩
    exact stands.sound.settle fun t x open' => .inl (settles t x open')

end Session.Steady

namespace Session

theorem run_rejected {s : Session} {source : List UInt8} {errors : List Error} (fuel : Nat)
    (rejected : prepareProgram s.nextId source = .error errors) :
    s.run fuel source = (.failed errors, s.discard programRule source) := by
  unfold run
  rw [rejected]

theorem nextId_le_discard {α : Type} {rule : Parser α}
    (keeps : ∀ lo, rule.Keeps (Cursor.countingFrom lo)) (s : Session) (source : List UInt8) :
    s.nextId ≤ (s.discard rule source).nextId := by
  unfold discard
  cases scanTokens source with
  | error _ => exact Nat.le_refl _
  | ok tokens => exact Parser.Keeps.nextId_le keeps (.start s.nextId tokens)

theorem nextId_le_discard_program (s : Session) (source : List UInt8) :
    s.nextId ≤ (s.discard programRule source).nextId :=
  nextId_le_discard (fun _ => programRule_keeps) s source

theorem nextId_le_discard_expression (s : Session) (source : List UInt8) :
    s.nextId ≤ (s.discard loneExpressionRule source).nextId :=
  nextId_le_discard (fun _ => loneExpressionRule_keeps) s source

theorem discard_of_parsed {α : Type} {s : Session} {rule : Parser α} {source : List UInt8}
    {tokens : List Token} {x : α} {hi : RefId} (scanned : scanTokens source = .ok tokens)
    (parsed : parseWith rule s.nextId tokens = .ok (x, hi)) :
    s.discard rule source = { s with nextId := hi } := by
  unfold discard
  rw [scanned]
  dsimp only
  unfold parseWith at parsed
  unfold Parser.after
  cases result : rule (.start s.nextId tokens) with
  | error e c =>
    rw [result] at parsed
    cases parsed
  | ok y c =>
    rw [result] at parsed
    dsimp only at parsed ⊢
    split at parsed
    · cases parsed
      rfl
    · cases parsed

theorem Steady.later {s s' : Session} {earlier : List Episode} (steady : s.Steady earlier)
    (machine : s'.machine = s.machine) (le : s.nextId ≤ s'.nextId) : s'.Steady earlier := by
  obtain ⟨programs, fresh, distinct, scope, sound⟩ := steady
  rw [← machine] at programs fresh scope sound
  refine ⟨fun r mem => ?_, fun id unused => fresh id (Nat.le_trans le unused), distinct, scope,
    sound⟩
  obtain ⟨lo, prepared, accepted, same, le', agree⟩ := programs r mem
  exact ⟨lo, prepared, accepted, same, Nat.le_trans le' le, agree⟩

theorem steady_start (sink : Sink) (clock : Clock) (maxDepth : Nat) :
    Steady ((Session.start sink clock).withMaxDepth maxDepth) [] := by
  let h := Heap.empty.addRoot [.clock]
  let S : Setting :=
    { globals := 0, table := {}, sites := [], Known := fun _ => False,
      Made := fun _ _ _ => False, ok := fun _ absurd => absurd.elim,
      parts := fun _ _ absurd => absurd.elim }
  -- The only variable there is holds the native function `clock`.
  have only {t : ScopeId} {x : String} {v : Value} (found : h.value? t x = some v) :
      v = .native 0 := by
    unfold Heap.value? at found
    match t with
    | 0 =>
      change (Bindings.insert Bindings.empty "clock" (Value.native 0)).find? x = some v at found
      rw [Bindings.find?_insert] at found
      split at found
      · cases found
        rfl
      · cases found
    | t + 1 => cases found
  have inner {t : ScopeId} {frame : Frame} (other : t ≠ 0)
      (found : [Frame.names []][t]? = some frame) : False := by
    match t with
    | 0 => exact other rfl
    | t + 1 => cases found
  refine ⟨fun r mem => (List.not_mem_nil mem).elim, fun id _ => rfl, List.nodup_nil, rfl, S,
    [.names []], rfl, ⟨fun v known => known.elim, fun _ _ _ made => made.elim, rfl⟩, ?_⟩
  exact
    { size := rfl
      root := Nat.zero_lt_one
      outermost := rfl
      names := fun t frame x other found _ => (inner other found).elim
      values := fun t x v found => only found ▸ rfl
      holds := fun t frame other found => (inner other found).elim
      fields := fun i o x v found => by cases found
      classOf := fun i o found => by cases found
      methods := fun c cls x id found => by cases found
      natives := rfl }

theorem Reached.steady {s : Session} {earlier : List Episode} (reached : s.Reached earlier) :
    s.Steady earlier := by
  induction reached with
  | start sink clock maxDepth => exact steady_start sink clock maxDepth
  | @rejected s earlier source errors fuel _ rejected ih =>
    rw [run_rejected fuel rejected]
    exact ih.later (s.discard_machine programRule source) (s.nextId_le_discard_program source)
  | @accepted s earlier source prepared fuel _ prepares ended ih =>
    have accepted := prepareProgram_accepted prepares
    obtain ⟨w, here⟩ := ih.start accepted fuel
    have kept := (ih.covered accepted fuel).result here
    -- What the run leaves awaited was cut off before it: nothing is suspended at the top.
    have past {t : ScopeId} {x : String} (open' : Awaited (CutOffIn earlier) [] t x) :
        CutOffIn (s.episode fuel prepared :: earlier) t x := by
      rcases open' with ⟨r, mem, cut⟩ | ⟨u, mem, -⟩
      · exact ⟨r, List.mem_cons_of_mem _ mem, cut⟩
      · cases mem
    rw [run_eq fuel prepares] at ended ⊢
    cases result : (s.episode fuel prepared).result with
    | ok a m' =>
      obtain ⟨w', steps, stands, -⟩ := kept.of_result_ok result
      exact ih.next accepted ⟨w, steps⟩ stands fun t x => past
    | error halt m' =>
      obtain ⟨w', steps, stands, -⟩ := kept.of_result_error result
      cases halt with
      | outOfFuel =>
        rw [result] at ended
        exact absurd rfl ended
      | error e =>
        refine ih.next accepted ⟨w, steps⟩ stands fun t x open' => ?_
        rcases open' with open' | cut
        · exact past open'
        · exact ⟨_, List.mem_cons_self, cut⟩

end Session

end Quill
