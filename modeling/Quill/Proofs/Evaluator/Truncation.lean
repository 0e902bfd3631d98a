import Quill.Proofs.Evaluator.Steps

set_option autoImplicit false

namespace Quill

theorem extract_append_of_le {a b : ByteArray} {n : Nat} (le : n ≤ a.size) :
    (a ++ b).extract 0 n = a.extract 0 n := by
  have nothing : b.extract 0 (n - a.size) = .empty := by
    rw [Nat.sub_eq_zero_of_le le]
    exact ByteArray.extract_eq_empty_iff.mpr (Nat.min_le_left _ _)
  rw [ByteArray.extract_append, Nat.zero_sub, nothing, ByteArray.append_empty]

theorem extract_append_of_ge {a b : ByteArray} {n : Nat} (le : a.size ≤ n) :
    (a ++ b).extract 0 n = a ++ b.extract 0 (n - a.size) := by
  have whole : a.extract 0 n = a := by
    apply ByteArray.ext
    rw [ByteArray.data_extract]
    exact Array.extract_eq_self_of_le le
  rw [ByteArray.extract_append, Nat.zero_sub, whole]

def Machine.taking (m : Machine) (limit : Nat) : Machine :=
  { m with sink.limit := some limit }

/-- An error of code that a function of the host runs is its own error. -/
def Deed.Strict : Deed → Prop
  | .done _ => True
  | .change _ next => ∀ view, (next view).Strict
  | .add _ _ respond next =>
    (∀ arguments line, (respond arguments line).Strict) ∧ ∀ id, (next id).Strict
  | .call _ _ next | .evaluate _ next =>
    (∀ e, next (.error e) = .done (.error e)) ∧ ∀ v, (next (.ok v)).Strict
  | .execute _ next => (∀ e, next (.error e) = .done (.error e)) ∧ ∀ flow, (next (.ok flow)).Strict

structure CutOff {α : Type} (limit : Nat) (before : ByteArray)
    (full cut : EStateM.Result Halt Machine α) : Prop where
  endless : (machineOf full).sink.limit = none
  strict : (machineOf full).heap.Hosts Deed.Strict
  appends : ∃ more, (machineOf full).sink.written = before ++ more
  same : (machineOf full).sink.written.size ≤ limit → cut = mapMachine (·.taking limit) full
  fails : before.size ≤ limit → limit < (machineOf full).sink.written.size →
    ∃ m, cut = .error (.error (.io .sinkFull)) m ∧
      m.sink.written = (machineOf full).sink.written.extract 0 limit

namespace Run

def Truncates {α : Type} (limit : Nat) (x : Run α) : Prop :=
  ∀ m : Machine, m.sink.limit = none → m.heap.Hosts Deed.Strict →
    CutOff limit m.sink.written (x m) (x (m.taking limit))

namespace Truncates

variable {α β : Type} {limit : Nat} {x : Run α}

theorem of_same (keeps : ∀ m, (machineOf (x m)).sink = m.sink)
    (host : ∀ m, m.heap.Hosts Deed.Strict → (machineOf (x m)).heap.Hosts Deed.Strict)
    (same : ∀ m : Machine, x (m.taking limit) = mapMachine (·.taking limit) (x m)) :
    Truncates limit x := by
  intro m endless strict
  refine ⟨?_, host m strict, ⟨.empty, ?_⟩, fun _ => same m, fun fits more => ?_⟩
  · rw [keeps]
    exact endless
  · rw [keeps, ByteArray.append_empty]
  · rw [keeps] at more
    exact absurd fits (Nat.not_le_of_lt more)

theorem of_onHeap (onHeap : OnHeap x) : Truncates limit x := by
  have kept (m : Machine) : x m = mapMachine (·.amid m) (x m) := onHeap.same m m
  refine of_same (fun m => ?_) (fun m strict => strict.of_natives (onHeap.natives m)) fun m => ?_
  · rw [kept, machineOf_mapMachine]
    rfl
  · have moved : x (m.taking limit) = mapMachine (·.amid (m.taking limit)) (x m) :=
      onHeap.same m (m.taking limit)
    rw [moved, kept]
    cases x m <;> rfl

theorem readClock : Truncates limit Run.readClock :=
  of_same (fun _ => rfl) (fun _ strict => strict) fun _ => rfl

theorem change (f : View → View) : Truncates limit (Run.change f) :=
  of_same (fun _ => rfl) (fun _ strict => strict) fun _ => rfl

theorem newNative {native : Native} (new : native.Within Deed.Strict) :
    Truncates limit (Run.newNative native) :=
  of_same (fun _ => rfl) (fun _ strict => strict.addNative new) fun _ => rfl

theorem ask {f : Machine → Except Error α} (free : ∀ m : Machine, f (m.taking limit) = f m) :
    Truncates limit (Run.ask f) := by
  refine of_same (fun m => ?_) (fun m strict => ?_) fun m => ?_
  · unfold Run.ask
    cases f m <;> rfl
  · unfold Run.ask
    cases f m <;> exact strict
  · unfold Run.ask
    rw [free]
    cases f m <;> rfl

theorem print (v : Value) : Truncates limit (Run.print v) := by
  intro m endless strict
  let bytes := (m.heap.display v ++ "\n").toUTF8
  have whole : Run.print v m = .ok () { m with sink.written := m.sink.written ++ bytes } :=
    print_of_fits (by rw [Sink.accepts, endless])
  have accepts : (m.taking limit).sink.accepts bytes.size =
      min bytes.size (limit - m.sink.written.size) := rfl
  rw [whole]
  refine ⟨endless, strict, ⟨bytes, rfl⟩, fun fits => ?_, fun fits exceeds => ?_⟩
  · change (m.sink.written ++ bytes).size ≤ limit at fits
    rw [ByteArray.size_append] at fits
    have room : (m.taking limit).sink.accepts bytes.size = bytes.size := by omega
    exact print_of_fits room
  · change limit < (m.sink.written ++ bytes).size at exceeds
    rw [ByteArray.size_append] at exceeds
    have rest : (m.taking limit).sink.accepts bytes.size = limit - m.sink.written.size := by omega
    have spent : (m.taking limit).sink.accepts bytes.size ≠ bytes.size := by omega
    refine ⟨_, print_of_full spent, ?_⟩
    change m.sink.written ++ bytes.extract 0 ((m.taking limit).sink.accepts bytes.size) = _
    rw [rest]
    exact (extract_append_of_ge fits).symm

theorem bind {f : α → Run β} (first : Truncates limit x) (next : ∀ a, Truncates limit (f a)) :
    Truncates limit (x >>= f) := by
  intro m endless strict
  obtain ⟨endless', strict', ⟨more, appends⟩, same, fails⟩ := first m endless strict
  rw [bind_eq_match, bind_eq_match]
  cases result : x m with
  | error halt m₁ =>
    rw [result] at endless' strict' appends same fails
    refine ⟨endless', strict', ⟨more, appends⟩, fun fits => ?_, fun fits exceeds => ?_⟩
    · rw [same fits]
      rfl
    · obtain ⟨m₂, cut, written⟩ := fails fits exceeds
      exact ⟨m₂, by rw [cut], written⟩
  | ok a m₁ =>
    rw [result] at endless' strict' appends same fails
    have appends' : m₁.sink.written = m.sink.written ++ more := appends
    obtain ⟨endless₂, strict₂, ⟨more₂, appends₂⟩, same₂, fails₂⟩ := next a m₁ endless' strict'
    have grown : m₁.sink.written.size ≤ (machineOf (f a m₁)).sink.written.size := by
      rw [appends₂, ByteArray.size_append]
      exact Nat.le_add_right _ _
    refine ⟨endless₂, strict₂, ⟨more ++ more₂, ?_⟩, fun fits => ?_, fun fits exceeds => ?_⟩
    · rw [← ByteArray.append_assoc, ← appends', appends₂]
    · rw [same (Nat.le_trans grown fits)]
      exact same₂ fits
    · by_cases early : m₁.sink.written.size ≤ limit
      · rw [same early]
        exact fails₂ early exceeds
      · -- The sink was full before the second run, which has only lost more bytes.
        obtain ⟨m₂, cut, written⟩ := fails fits (Nat.lt_of_not_le early)
        refine ⟨m₂, by rw [cut], ?_⟩
        rw [appends₂, extract_append_of_le (Nat.le_of_not_le early)]
        exact written

theorem borrowing {enter : Machine → Machine} {leave : Machine → Machine → Machine}
    (inner : Truncates limit x) (enters : ∀ m, (enter m).sink = m.sink)
    (entersHeap : ∀ m, (enter m).heap = m.heap) (leaves : ∀ m m', (leave m m').sink = m'.sink)
    (leavesHeap : ∀ m m', (leave m m').heap = m'.heap)
    (entersSame : ∀ m : Machine, enter (m.taking limit) = (enter m).taking limit)
    (leavesSame : ∀ m m' : Machine,
      leave (m.taking limit) (m'.taking limit) = (leave m m').taking limit) :
    Truncates limit (Run.borrowing enter leave x) := by
  intro m endless strict
  have back (m₀ : Machine) :
      Run.borrowing enter leave x m₀ = mapMachine (leave m₀) (x (enter m₀)) := by
    unfold Run.borrowing
    cases x (enter m₀) <;> rfl
  obtain ⟨endless', strict', ⟨more, appends⟩, same, fails⟩ :=
    inner (enter m) ((congrArg Sink.limit (enters m)).trans endless) ((entersHeap m).symm ▸ strict)
  rw [enters] at appends fails
  rw [back, back, entersSame]
  have sink : (machineOf (mapMachine (leave m) (x (enter m)))).sink =
      (machineOf (x (enter m))).sink := by
    rw [machineOf_mapMachine, leaves]
  -- The sink goes in and comes out as it is, so all that is said of it carries over.
  refine ⟨?_, ?_, ⟨more, ?_⟩, fun fits => ?_, fun fits exceeds => ?_⟩
  · rw [sink, endless']
  · rw [machineOf_mapMachine, leavesHeap]
    exact strict'
  · rw [sink, appends]
  · rw [sink] at fits
    rw [same fits]
    cases x (enter m) with
    | ok a m' => exact congrArg _ (leavesSame m m')
    | error halt m' => exact congrArg _ (leavesSame m m')
  · rw [sink] at exceeds ⊢
    obtain ⟨m', result, written⟩ := fails fits exceeds
    refine ⟨leave (m.taking limit) m', by rw [result]; rfl, ?_⟩
    rw [leaves, written]

theorem inScope (s : ScopeId) (inner : Truncates limit x) :
    Truncates limit (Run.inScope s x) := by
  rw [inScope_eq]
  apply inner.borrowing <;> intros <;> rfl

theorem oneDeeper (line : Nat) (inner : Truncates limit x) :
    Truncates limit (Run.oneDeeper line x) := by
  rw [oneDeeper_eq]
  refine bind (ask fun _ => rfl) fun _ => ?_
  apply inner.borrowing <;> intros <;> rfl

theorem closed (limit : Nat) : Closed (Truncates limit) where
  onHeap := of_onHeap
  print := print
  readClock := readClock
  bind := bind
  inScope := inScope
  oneDeeper := oneDeeper

theorem attempt_bind {f : Except Error α → Run β} (first : Truncates limit x)
    (raises : ∀ e, f (.error e) = Run.fail e) (next : ∀ a, Truncates limit (f (.ok a))) :
    Truncates limit (Run.attempt x >>= f) := by
  have same : Run.attempt x >>= f = x >>= fun a => f (.ok a) := by
    funext m
    rw [bind_eq_match, bind_eq_match]
    unfold Run.attempt
    cases x m with
    | ok a m' => rfl
    | error halt m' =>
      cases halt with
      | outOfFuel => rfl
      | error e =>
        dsimp only
        rw [raises]
        rfl
  rw [same]
  exact first.bind next

section Host

variable {ev : Evaluator} (answers : ∀ t : Task, t.Within Deed.Strict → Truncates limit (ev.answer t))

include answers

theorem actRule (line : Nat) {deed : Deed} (strict : deed.Strict) :
    Truncates limit (ev.actRule line deed) := by
  -- The error of a full sink is passed on as it is, so nothing comes after it here either.
  have raises {deed' : Deed} {e : Error} (same : deed' = .done (.error e)) :
      ev.actRule line deed' = Run.fail e := by
    subst same
    rfl
  induction deed with
  | done result => exact ask fun _ => rfl
  | change f next ih => exact (change f).bind fun view => ih view (strict view)
  | add name arity respond next _ ih =>
    refine (newNative ?_).bind fun id => ih id (strict.2 id)
    rintro arguments line _ ⟨⟩
    exact strict.1 arguments line
  | call callee arguments next ih =>
    exact (answers (.call callee arguments line) trivial).attempt_bind
      (fun e => raises (strict.1 e)) fun v => ih (.ok v) (strict.2 v)
  | execute s next ih =>
    exact (answers (.stmt s) trivial).attempt_bind (fun e => raises (strict.1 e))
      fun flow => ih (.ok flow) (strict.2 flow)
  | evaluate e next ih =>
    exact (answers (.expr e) trivial).attempt_bind (fun e => raises (strict.1 e))
      fun v => ih (.ok v) (strict.2 v)

theorem callNative (id : NativeId) (arguments : List Value) (line : Nat) :
    Truncates limit (ev.callNative id arguments line) := by
  intro m endless strict
  unfold Evaluator.callNative
  have same : (m.taking limit).heap.natives = m.heap.natives := rfl
  rw [object_bind, object_bind, same]
  cases found : m.heap.natives[id]? with
  | none => exact (of_onHeap (.fail (.internal .dangling))) m endless strict
  | some native =>
    dsimp only
    cases reply : native.respond arguments line with
    | value v => exact of_onHeap (.pure v) m endless strict
    | error e => exact of_onHeap (.fail e) m endless strict
    | invoke callee arguments =>
      exact answers (.call callee arguments line) trivial m endless strict
    | now => exact readClock m endless strict
    | act deed =>
      exact answers (.act deed line) (strict.found found arguments line deed reply) m endless strict

end Host

theorem hosting (limit : Nat) : Hosting Deed.Strict (Truncates limit) where
  calls := callNative
  acts answers _ strict line := actRule answers line strict

end Truncates

end Run

end Quill
