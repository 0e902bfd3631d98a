import Quill.Machine
import Quill.Proofs.Simulation.World

set_option autoImplicit false

namespace Quill

structure Stands (S : Setting) (p : Pending) (w : World) (m : Machine) : Prop where
  sound : Sound S p w m.heap
  globals : m.globals = S.globals
  table : m.distances = S.table

structure Steps (w w' : World) (m m' : Machine) : Prop where
  world : w <+: w'
  grows : m.heap.Grows m'.heap
  globals : m'.globals = m.globals
  scope : m'.scope = m.scope
  distances : m'.distances = m.distances
  flush : m'.sink.flushFails = m.sink.flushFails

namespace Steps

variable {w w' w'' : World} {m m' m'' : Machine}

theorem refl (w : World) (m : Machine) : Steps w w m m :=
  ⟨List.prefix_rfl, .refl _, rfl, rfl, rfl, rfl⟩

theorem trans (first : Steps w w' m m') (second : Steps w' w'' m' m'') : Steps w w'' m m'' :=
  ⟨first.world.trans second.world, first.grows.trans second.grows,
    second.globals.trans first.globals, second.scope.trans first.scope,
    second.distances.trans first.distances, second.flush.trans first.flush⟩

theorem of_heap {h : Heap} (world : w <+: w') (grows : m.heap.Grows h) :
    Steps w w' m { m with heap := h } :=
  ⟨world, grows, rfl, rfl, rfl, rfl⟩

theorem later (steps : Steps w w' m m') (p : Pending) : Later p p w w' m.heap m'.heap :=
  .of_grows steps.world steps.grows

end Steps

def Allowed (premature : Prop) : Halt → Prop
  | .outOfFuel => True
  | .error (.runtime ..) => True
  | .error (.io _) => True
  | .error (.internal (.notBound ..)) => premature
  | .error _ => False

structure Terms where
  setting : Setting
  pending : Pending
  lost : Pending
  premature : Prop

def Terms.left (T : Terms) : Pending :=
  fun s x => T.pending s x ∨ T.lost s x

/-- A result leaves the machine sound and has some property; a failure leaves it sound as far as it
goes. -/
def Keeps {α : Type} (T : Terms) (x : Run α) (w : World) (m : Machine)
    (Q : World → α → Machine → Prop) : Prop :=
  match x m with
  | .ok a m' => ∃ w', Steps w w' m m' ∧ Stands T.setting T.pending w' m' ∧ Q w' a m'
  | .error halt m' => ∃ w', Steps w w' m m' ∧ Stands T.setting T.left w' m' ∧
      Allowed T.premature halt

theorem Stands.settle {S : Setting} {p p' : Pending} {w : World} {m : Machine}
    (stands : Stands S p w m) (settled : ∀ s x, p s x → p' s x ∨ m.heap.Binds s x) :
    Stands S p' w m :=
  ⟨stands.sound.settle settled, stands.globals, stands.table⟩

theorem Stands.of_heap {S : Setting} {p : Pending} {w w' : World} {m : Machine} {h : Heap}
    (stands : Stands S p w m) (sound : Sound S p w' h) : Stands S p w' { m with heap := h } :=
  ⟨sound, stands.globals, stands.table⟩

namespace Keeps

open Run

variable {α β : Type} {T : Terms} {w w' : World} {m m' : Machine} {x : Run α}
  {Q R : World → α → Machine → Prop}

theorem of_ok {a : α} (same : x m = .ok a m') (steps : Steps w w' m m')
    (stands : Stands T.setting T.pending w' m') (post : Q w' a m') : Keeps T x w m Q := by
  unfold Keeps
  rw [same]
  exact ⟨w', steps, stands, post⟩

theorem of_error {halt : Halt} (same : x m = .error halt m') (steps : Steps w w' m m')
    (stands : Stands T.setting T.left w' m') (allowed : Allowed T.premature halt) :
    Keeps T x w m Q := by
  unfold Keeps
  rw [same]
  exact ⟨w', steps, stands, allowed⟩

theorem of_result_ok {a : α} (keeps : Keeps T x w m Q) (same : x m = .ok a m') :
    ∃ w', Steps w w' m m' ∧ Stands T.setting T.pending w' m' ∧ Q w' a m' := by
  unfold Keeps at keeps
  rw [same] at keeps
  exact keeps

theorem of_result_error {halt : Halt} (keeps : Keeps T x w m Q) (same : x m = .error halt m') :
    ∃ w', Steps w w' m m' ∧ Stands T.setting T.left w' m' ∧ Allowed T.premature halt := by
  unfold Keeps at keeps
  rw [same] at keeps
  exact keeps

theorem imp (keeps : Keeps T x w m Q)
    (post : ∀ w' a m', Steps w w' m m' → Stands T.setting T.pending w' m' → Q w' a m' →
      R w' a m') : Keeps T x w m R := by
  unfold Keeps at keeps ⊢
  split at keeps
  next =>
    obtain ⟨w', steps, stands, q⟩ := keeps
    exact ⟨w', steps, stands, post _ _ _ steps stands q⟩
  next => exact keeps

theorem bind_ok {f : α → Run β} {R : World → β → Machine → Prop} {a : α} (same : x m = .ok a m')
    (steps : Steps w w' m m') (next : Keeps T (f a) w' m' R) : Keeps T (x >>= f) w m R := by
  unfold Keeps at next ⊢
  rw [Run.bind_of_ok same]
  split at next
  next =>
    obtain ⟨w'', steps', rest⟩ := next
    exact ⟨w'', steps.trans steps', rest⟩
  next =>
    obtain ⟨w'', steps', rest⟩ := next
    exact ⟨w'', steps.trans steps', rest⟩

theorem bind_error {f : α → Run β} {R : World → β → Machine → Prop} {halt : Halt}
    (same : x m = .error halt m') (steps : Steps w w' m m')
    (stands : Stands T.setting T.left w' m') (allowed : Allowed T.premature halt) :
    Keeps T (x >>= f) w m R := by
  exact of_error (Run.bind_of_error same) steps stands allowed

theorem bind_eq {f : α → Run β} {R : World → β → Machine → Prop} (first : Keeps T x w m Q)
    (next : ∀ w' a m', x m = .ok a m' → Steps w w' m m' → Stands T.setting T.pending w' m' →
      Q w' a m' → Keeps T (f a) w' m' R) : Keeps T (x >>= f) w m R := by
  cases result : x m with
  | ok a m' =>
    obtain ⟨w', steps, stands, q⟩ := first.of_result_ok result
    exact bind_ok result steps (next w' a m' result steps stands q)
  | error halt m' =>
    obtain ⟨w', steps, stands, allowed⟩ := first.of_result_error result
    exact bind_error result steps stands allowed

theorem bind {f : α → Run β} {R : World → β → Machine → Prop} (first : Keeps T x w m Q)
    (next : ∀ w' a m', Steps w w' m m' → Stands T.setting T.pending w' m' → Q w' a m' →
      Keeps T (f a) w' m' R) : Keeps T (x >>= f) w m R :=
  first.bind_eq fun w' a m' _ => next w' a m'

theorem map {f : α → β} {R : World → β → Machine → Prop} (first : Keeps T x w m Q)
    (post : ∀ w' a m', Steps w w' m m' → Stands T.setting T.pending w' m' → Q w' a m' →
      R w' (f a) m') : Keeps T (f <$> x) w m R := by
  rw [map_eq_pure_bind]
  exact first.bind fun w' a m' steps stands q =>
    of_ok rfl (.refl w' m') stands (post w' a m' steps stands q)

theorem left (stands : Stands T.setting T.pending w m) : Stands T.setting T.left w m :=
  stands.settle fun _ _ open' => .inl (.inl open')

theorem pure {a : α} (stands : Stands T.setting T.pending w m) (post : Q w a m) :
    Keeps T (Pure.pure a) w m Q :=
  of_ok rfl (.refl w m) stands post

theorem fail {e : Error} (stands : Stands T.setting T.pending w m)
    (allowed : Allowed T.premature (.error e)) : Keeps T (Run.fail e) w m Q :=
  of_error rfl (.refl w m) (left stands) allowed

theorem failAt {line : Nat} {fault : RuntimeFault} (stands : Stands T.setting T.pending w m) :
    Keeps T (Run.failAt line fault) w m Q :=
  fail stands trivial

theorem outOfFuel (stands : Stands T.setting T.pending w m) : Keeps T Run.outOfFuel w m Q :=
  of_error rfl (.refl w m) (left stands) trivial

theorem ask {f : Machine → Except Error α} (stands : Stands T.setting T.pending w m)
    (ok : ∀ a, f m = .ok a → Q w a m) (error : ∀ e, f m = .error e → Allowed T.premature (.error e)) :
    Keeps T (Run.ask f) w m Q := by
  cases result : f m with
  | ok a => exact of_ok (by unfold Run.ask; rw [result]) (.refl w m) stands (ok a result)
  | error e =>
    exact of_error (by unfold Run.ask; rw [result]) (.refl w m) (left stands) (error e result)

theorem bind_ask {f : Machine → Except Error α} {g : α → Run β} {R : World → β → Machine → Prop}
    {a : α} (found : f m = .ok a) (next : Keeps T (g a) w m R) :
    Keeps T (Run.ask f >>= g) w m R :=
  bind_ok (by unfold Run.ask; rw [found]) (.refl w m) next

theorem bind_ask_error {f : Machine → Except Error α} {g : α → Run β}
    {R : World → β → Machine → Prop} {e : Error} (stands : Stands T.setting T.pending w m)
    (failed : f m = .error e) (allowed : Allowed T.premature (.error e)) :
    Keeps T (Run.ask f >>= g) w m R :=
  bind_error (by unfold Run.ask; rw [failed]) (.refl w m) (left stands) allowed

theorem bind_object {f : Heap → Option α} {g : α → Run β} {R : World → β → Machine → Prop} {a : α}
    (found : f m.heap = some a) (next : Keeps T (g a) w m R) :
    Keeps T (Run.object f >>= g) w m R :=
  bind_ok (by unfold Run.object; rw [found]) (.refl w m) next

theorem bind_currentScope {g : ScopeId → Run β} {R : World → β → Machine → Prop}
    (next : Keeps T (g m.scope) w m R) : Keeps T (Run.currentScope >>= g) w m R :=
  bind_ok rfl (.refl w m) next

theorem inScope {s : ScopeId} (inner : Keeps T x w { m with scope := s } Q)
    (post : ∀ w' a m', Steps w w' m { m' with scope := m.scope } →
      Stands T.setting T.pending w' { m' with scope := m.scope } → Q w' a m' →
      R w' a { m' with scope := m.scope }) :
    Keeps T (Run.inScope s x) w m R := by
  have back {w' : World} {m' : Machine} (steps : Steps w w' { m with scope := s } m') :
      Steps w w' m { m' with scope := m.scope } :=
    ⟨steps.world, steps.grows, steps.globals, rfl, steps.distances, steps.flush⟩
  have back' {p : Pending} {w' : World} {m' : Machine} (stands : Stands T.setting p w' m') :
      Stands T.setting p w' { m' with scope := m.scope } :=
    ⟨stands.sound, stands.globals, stands.table⟩
  cases result : x { m with scope := s } with
  | ok a m' =>
    obtain ⟨w', steps, stands, q⟩ := inner.of_result_ok result
    have same : Run.inScope s x m = .ok a { m' with scope := m.scope } := by
      unfold Run.inScope
      simp only [result]
    exact of_ok same (back steps) (back' stands) (post w' a m' (back steps) (back' stands) q)
  | error halt m' =>
    obtain ⟨w', steps, stands, allowed⟩ := inner.of_result_error result
    have same : Run.inScope s x m = .error halt { m' with scope := m.scope } := by
      unfold Run.inScope
      simp only [result]
    exact of_error same (back steps) (back' stands) allowed

theorem oneDeeper {line : Nat} (stands : Stands T.setting T.pending w m)
    (inner : Keeps T x w { m with depth := m.depth + 1 } Q)
    (post : ∀ w' a m', Q w' a m' → R w' a { m' with depth := m.depth }) :
    Keeps T (Run.oneDeeper line x) w m R := by
  have back {w' : World} {m' : Machine} (steps : Steps w w' { m with depth := m.depth + 1 } m') :
      Steps w w' m { m' with depth := m.depth } :=
    ⟨steps.world, steps.grows, steps.globals, steps.scope, steps.distances, steps.flush⟩
  have back' {p : Pending} {w' : World} {m' : Machine} (stands : Stands T.setting p w' m') :
      Stands T.setting p w' { m' with depth := m.depth } :=
    ⟨stands.sound, stands.globals, stands.table⟩
  by_cases deep : m.maxDepth ≤ m.depth
  · have same : Run.oneDeeper line x m = .error (.error (.runtime .stackOverflow line)) m := by
      unfold Run.oneDeeper
      simp only [deep, if_true]
    exact of_error same (.refl w m) (left stands) trivial
  · cases result : x { m with depth := m.depth + 1 } with
    | ok a m' =>
      obtain ⟨w', steps, stands', q⟩ := inner.of_result_ok result
      have same : Run.oneDeeper line x m = .ok a { m' with depth := m.depth } := by
        unfold Run.oneDeeper
        simp only [deep, if_false, result]
      exact of_ok same (back steps) (back' stands') (post w' a m' q)
    | error halt m' =>
      obtain ⟨w', steps, stands', allowed⟩ := inner.of_result_error result
      have same : Run.oneDeeper line x m = .error halt { m' with depth := m.depth } := by
        unfold Run.oneDeeper
        simp only [deep, if_false, result]
      exact of_error same (back steps) (back' stands') allowed

theorem print {value : Value} {Q : World → Unit → Machine → Prop}
    (stands : Stands T.setting T.pending w m)
    (post : ∀ m', m'.heap = m.heap → m'.scope = m.scope → Q w () m') :
    Keeps T (Run.print value) w m Q := by
  let bytes := (m.heap.display value ++ "\n").toUTF8
  let m' := { m with sink := m.sink.write bytes }
  have steps : Steps w w m m' := ⟨List.prefix_rfl, .refl _, rfl, rfl, rfl, rfl⟩
  have stands' : Stands T.setting T.pending w m' := ⟨stands.sound, stands.globals, stands.table⟩
  have result : Run.print value m =
      if m.sink.accepts bytes.size == bytes.size then .ok () m'
      else .error (.error (.io .sinkFull)) m' := rfl
  split at result
  · exact of_ok result steps stands' (post m' rfl rfl)
  · exact of_error result steps (left stands') trivial

theorem readClock {Q : World → Value → Machine → Prop} (stands : Stands T.setting T.pending w m)
    (post : ∀ x m', m'.heap = m.heap → m'.scope = m.scope → Q w (.number x) m') :
    Keeps T Run.readClock w m Q :=
  of_ok rfl ⟨List.prefix_rfl, .refl _, rfl, rfl, rfl, rfl⟩
    ⟨stands.sound, stands.globals, stands.table⟩ (post _ _ rfl rfl)

end Keeps

end Quill
