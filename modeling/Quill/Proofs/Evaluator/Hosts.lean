import Quill.Proofs.Evaluator.Confined

set_option autoImplicit false

namespace Quill

theorem Deed.only_true (deed : Deed) : deed.Only (fun _ => True) fun _ => True := by
  induction deed with
  | done result => trivial
  | change f next ih => exact ⟨trivial, ih⟩
  | add name arity respond next responds ih => exact ⟨responds, ih⟩
  | call callee arguments next ih => exact ih
  | execute s next ih => exact ⟨trivial, ih⟩
  | evaluate e next ih => exact ih

structure Registers where
  globals : ScopeId
  scope : ScopeId
  distances : Distances
  depth : Nat
  maxDepth : Nat

def View.registers (v : View) : Registers :=
  ⟨v.globals, v.scope, v.distances, v.depth, v.maxDepth⟩

def Machine.registers (m : Machine) : Registers :=
  ⟨m.globals, m.scope, m.distances, m.depth, m.maxDepth⟩

/-- A function of the host that changes no register by itself. -/
def Deed.Restoring : Deed → Prop :=
  Deed.Only (fun f => ∀ v, (f v).registers = v.registers) fun _ => True

structure Machine.Lasting {β : Type} (f : Machine → β) (Changes : (View → View) → Prop) : Prop where
  heap : ∀ (m : Machine) h, f { m with heap := h } = f m
  print : ∀ (m : Machine) bytes, f { m with sink := m.sink.write bytes } = f m
  readClock : ∀ m : Machine, f { m with clock.readings := m.clock.readings + 1 } = f m
  inScope : ∀ (m m' : Machine) s,
    f m' = f { m with scope := s } → f { m' with scope := m.scope } = f m
  oneDeeper : ∀ m m' : Machine, f m' = f { m with depth := m.depth + 1 } →
    f { m' with depth := m.depth } = f m
  change : ∀ (m : Machine) g, Changes g → f (m.leftAs (g m.view)) = f m

theorem Machine.lasting_registers :
    Machine.Lasting Machine.registers fun f => ∀ v, (f v).registers = v.registers where
  heap _ _ := rfl
  print _ _ := rfl
  readClock _ := rfl
  inScope m m' s same := by
    obtain ⟨globals, -, distances, depth, maxDepth⟩ := Registers.mk.inj same
    simp only [registers, globals, distances, depth, maxDepth]
  oneDeeper m m' same := by
    obtain ⟨globals, scope, distances, -, maxDepth⟩ := Registers.mk.inj same
    simp only [registers, globals, scope, distances, maxDepth]
  change m g restoring := restoring m.view

theorem Machine.lasting_flush :
    Machine.Lasting (fun m => m.sink.flushFails) fun _ => True where
  heap _ _ := rfl
  print _ _ := rfl
  readClock _ := rfl
  inScope _ _ _ same := same
  oneDeeper _ _ same := same
  change _ _ _ := rfl

namespace Run

variable {α β γ : Type} {A : Deed → Prop} {f : Machine → γ} {x : Run α}

def Leaves (A : Deed → Prop) (f : Machine → γ) (x : Run α) : Prop :=
  ∀ m : Machine, m.heap.Hosts A →
    f (machineOf (x m)) = f m ∧ (machineOf (x m)).heap.Hosts A

namespace Leaves

theorem bind {g : α → Run β} (first : Leaves A f x) (next : ∀ a, Leaves A f (g a)) :
    Leaves A f (x >>= g) := by
  intro m hosts
  have done := first m hosts
  rw [bind_eq_match]
  cases result : x m with
  | ok a m' =>
    rw [result] at done
    have rest := next a m' done.2
    exact ⟨rest.1.trans done.1, rest.2⟩
  | error halt m' =>
    rw [result] at done
    exact done

theorem attempt (inner : Leaves A f x) : Leaves A f (Run.attempt x) := by
  intro m hosts
  have done := inner m hosts
  unfold Run.attempt
  cases result : x m with
  | ok a m' =>
    rw [result] at done
    exact done
  | error halt m' =>
    rw [result] at done
    cases halt <;> exact done

end Leaves

end Run

namespace Machine.Lasting

variable {α γ : Type} {f : Machine → γ} {Changes : (View → View) → Prop} {A : Deed → Prop}
  {x : Run α}

theorem inside (lasting : Lasting f Changes) (s : ScopeId) (inner : Run.Leaves A f x) :
    Run.Leaves A f (Run.inScope s x) := by
  intro m hosts
  have done := inner { m with scope := s } hosts
  unfold Run.inScope
  cases result : x { m with scope := s } with
  | ok _ m' | error _ m' =>
    rw [result] at done
    exact ⟨lasting.inScope m m' s done.1, done.2⟩

theorem deeper (lasting : Lasting f Changes) (line : Nat) (inner : Run.Leaves A f x) :
    Run.Leaves A f (Run.oneDeeper line x) := by
  intro m hosts
  have done := inner { m with depth := m.depth + 1 } hosts
  unfold Run.oneDeeper
  dsimp only
  split
  · exact ⟨rfl, hosts⟩
  · cases result : x { m with depth := m.depth + 1 } with
    | ok _ m' | error _ m' =>
      rw [result] at done
      exact ⟨lasting.oneDeeper m m' done.1, done.2⟩

theorem closed (lasting : Lasting f Changes) (A : Deed → Prop) : Run.Closed (Run.Leaves A f) where
  onHeap onHeap m hosts := by
    obtain ⟨h, stays, natives⟩ := onHeap.stays m
    rw [stays]
    exact ⟨lasting.heap m h, hosts.of_natives natives⟩
  print v m hosts := by
    unfold Run.print
    dsimp only
    split <;> exact ⟨lasting.print m _, hosts⟩
  readClock m hosts := ⟨lasting.readClock m, hosts⟩
  bind := .bind
  inScope := lasting.inside
  oneDeeper := lasting.deeper

section Host

variable (lasting : Lasting f Changes) {ev : Evaluator} {Executes : Stmt → Prop}
  (answers : ∀ t : Task, t.Within (Deed.Only Changes Executes) →
    Run.Leaves (Deed.Only Changes Executes) f (ev.answer t))

include lasting answers

theorem actRule (line : Nat) {deed : Deed} (only : deed.Only Changes Executes) :
    Run.Leaves (Deed.Only Changes Executes) f (ev.actRule line deed) := by
  -- What is run on the way puts everything back by itself, also where it fails and is caught.
  induction deed with
  | done result => exact (lasting.closed _).onHeap (.ask fun _ _ => rfl)
  | change g next ih =>
    refine .bind (fun m hosts => ⟨lasting.change m g only.1, hosts⟩) fun view => ?_
    exact ih view (only.2 view)
  | add name arity respond next _ ih =>
    refine .bind (fun m hosts => ⟨lasting.heap m _, hosts.addNative ?_⟩) fun id => ih id (only.2 id)
    rintro arguments line _ ⟨⟩
    exact only.1 arguments line
  | call callee arguments next ih =>
    exact (answers (.call callee arguments line) trivial).attempt.bind fun r => ih r (only r)
  | execute s next ih => exact (answers (.stmt s) trivial).attempt.bind fun r => ih r (only.2 r)
  | evaluate e next ih => exact (answers (.expr e) trivial).attempt.bind fun r => ih r (only r)

theorem callNative (id : NativeId) (arguments : List Value) (line : Nat) :
    Run.Leaves (Deed.Only Changes Executes) f (ev.callNative id arguments line) := by
  intro m hosts
  unfold Evaluator.callNative
  rw [Run.object_bind]
  cases found : m.heap.natives[id]? with
  | none => exact ⟨rfl, hosts⟩
  | some native =>
    dsimp only
    cases reply : native.respond arguments line with
    | value v => exact ⟨rfl, hosts⟩
    | error e => exact ⟨rfl, hosts⟩
    | invoke callee arguments => exact answers (.call callee arguments line) trivial m hosts
    | now => exact (lasting.closed _).readClock m hosts
    | act deed =>
      exact answers (.act deed line) (hosts.found found arguments line deed reply) m hosts

end Host

theorem hosting (lasting : Lasting f Changes) (Executes : Stmt → Prop) :
    Run.Hosting (Deed.Only Changes Executes) (Run.Leaves (Deed.Only Changes Executes) f) where
  calls := lasting.callNative
  acts answers _ only line := lasting.actRule answers line only

theorem withFuel (lasting : Lasting f Changes) (Executes : Stmt → Prop) (n : Nat) {t : Task}
    (within : t.Within (Deed.Only Changes Executes)) :
    Run.Leaves (Deed.Only Changes Executes) f ((Evaluator.withFuel n).answer t) :=
  Evaluator.withFuel_closed (lasting.closed _) (lasting.hosting Executes) n within

theorem runTopLevel (lasting : Lasting f Changes) (Executes : Stmt → Prop) (n : Nat)
    (program : List Stmt) :
    Run.Leaves (Deed.Only Changes Executes) f (Quill.runTopLevel (.withFuel n) program) :=
  Evaluator.runTopLevel_closed (lasting.closed _)
    (fun _ own => lasting.withFuel Executes n (own.within _)) program

theorem interpret (lasting : Lasting f Changes) (Executes : Stmt → Prop) (n : Nat)
    (program : List Stmt) :
    Run.Leaves (Deed.Only Changes Executes) f (Quill.interpret n program) := by
  intro m hosts
  rw [machineOf_interpret]
  exact lasting.runTopLevel Executes n program m hosts

end Machine.Lasting

theorem runTopLevel_flushFails (n : Nat) (program : List Stmt) (m : Machine) :
    (machineOf (runTopLevel (.withFuel n) program m)).sink.flushFails = m.sink.flushFails :=
  (Machine.lasting_flush.runTopLevel _ n program m fun _ _ _ _ deed _ => deed.only_true).1

/-- A function of the host that neither leaves the scope the machine is in nor adds names to scopes
that were there before, be it by a declaration. -/
def Deed.Reticent : Deed → Prop :=
  Deed.Only
    (fun f => ∀ m : Machine, (f m.view).scope = m.scope ∧
      m.heap.Frames m.scope [] (m.leftAs (f m.view)).heap)
    fun s => s.names = []

def Region.reticent : Region where
  Code _ := True
  Callee _ _ := True
  Host := Native.Within Deed.Reticent
  Act := Deed.Reticent
  parts _ _ := trivial
  anonymous _ := trivial
  named _ := trivial
  method _ := trivial
  body _ := trivial
  acts reticent := reticent

theorem Region.reticent_holds {h : Heap} (hosts : h.Hosts Deed.Reticent) : reticent.Holds h :=
  ⟨fun _ _ _ => trivial, fun _ _ found => hosts.found found⟩

theorem Region.reticent_not_quiet : ¬ reticent.Quiet :=
  fun quiet => quiet (.done (.ok .nil)) trivial

namespace Run.Confined

variable {α : Type} {x : Run α} {names : List String}

theorem attempt {R : Region} (inner : Confined R names x) : Confined R names (Run.attempt x) := by
  intro m here
  obtain ⟨holds, scope, frames, gains, -⟩ := inner m here
  unfold Run.attempt
  cases result : x m with
  | ok a m' =>
    rw [result] at holds scope frames gains
    exact ⟨holds, scope, frames, gains, fun _ _ => rfl⟩
  | error halt m' =>
    rw [result] at holds scope frames gains
    cases halt <;> exact ⟨holds, scope, frames, gains, fun _ _ => rfl⟩

theorem change {f : View → View}
    (frames : ∀ m : Machine, (f m.view).scope = m.scope ∧
      m.heap.Frames m.scope [] (m.leftAs (f m.view)).heap) :
    Confined .reticent [] (Run.change f) :=
  fun m here => ⟨⟨fun _ _ _ => trivial, here.natives⟩, (frames m).1, (frames m).2,
    fun quiet => (Region.reticent_not_quiet quiet).elim, fun _ _ => rfl⟩

theorem newNative {native : Native} (new : native.Within Deed.Reticent) :
    Confined .reticent [] (Run.newNative native) := by
  refine fun m here => .of_gains ⟨fun _ _ _ => trivial, fun id native' found => ?_⟩ rfl
    (.of_scopes [] rfl (fun _ _ found => found) fun _ _ found => .inl found) fun _ _ => rfl
  rcases Heap.getElem?_push_cases found with old | ⟨-, rfl⟩
  · exact here.natives id native' old
  · exact new

end Run.Confined

theorem Evaluator.Confined.actRule {ev : Evaluator} (confined : ev.Confined .reticent) :
    ev.ActsConfined .reticent := by
  intro deed reticent line
  induction deed with
  | done result => exact .ask fun distinct => (Region.reticent_not_quiet distinct.quiet).elim
  | change f next ih =>
    exact (Run.Confined.change reticent.1).bind fun view => ih view (reticent.2 view)
  | add name arity respond next _ ih =>
    refine (Run.Confined.newNative ?_).bind fun id => ih id (reticent.2 id)
    rintro arguments line _ ⟨⟩
    exact reticent.1 arguments line
  | call callee arguments next ih =>
    have called : Run.Confined .reticent [] (ev.invoke callee arguments line) :=
      confined (.call callee arguments line) trivial
    exact called.attempt.bind fun r => ih r (reticent r)
  | execute s next ih =>
    -- The statement declares nothing, so it adds no name to the scope that the deed is in.
    have executed : Run.Confined .reticent [] (ev.exec s) :=
      (confined.exec (s := s) trivial).mono (List.subset_nil.mpr reticent.1)
    exact executed.attempt.bind fun r => ih r (reticent.2 r)
  | evaluate e next ih =>
    exact (confined.eval (e := e) trivial).attempt.bind fun r => ih r (reticent r)

theorem Evaluator.reticent_withFuel (n : Nat) : (withFuel n).Confined .reticent :=
  confined_of_acts (fun _ confined => confined.actRule) n

end Quill
