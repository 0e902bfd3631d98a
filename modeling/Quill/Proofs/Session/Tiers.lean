import Quill.Cli
import Quill.Proofs.Grammar.Faults
import Quill.Proofs.Grammar.Program
import Quill.Proofs.Resolution.Locality
import Quill.Proofs.Session.Tables

set_option autoImplicit false

namespace Quill

def Error.Lexical : Error → Prop
  | .lexical .. => True
  | _ => False

theorem errorsOf_itemsFrom_lexical (line : Nat) (lexemes : List Lexeme) :
    ∀ e ∈ errorsOf (itemsFrom line lexemes), e.Lexical := by
  induction lexemes generalizing line with
  | nil =>
    intro e mem
    cases mem
  | cons l rest ih =>
    unfold itemsFrom
    dsimp only
    split
    next => exact ih _
    next fault _ =>
      intro e mem
      rcases List.mem_cons.mp mem with rfl | mem
      · trivial
      · exact ih _ e mem
    next => exact ih _
    next => exact ih _

theorem scanTokens_error {source : List UInt8} {errors : List Error}
    (failed : scanTokens source = .error errors) :
    errors ≠ [] ∧ ∀ e ∈ errors, e.Lexical := by
  unfold scanTokens at failed
  dsimp only at failed
  split at failed
  next => cases failed
  next some =>
    cases failed
    exact ⟨some, errorsOf_itemsFrom_lexical 1 _⟩

theorem resolveProgram_error {program : List Stmt} {errors : List Error}
    (failed : resolveProgram program = .error errors) :
    errors ≠ [] ∧ ∀ e ∈ errors, e.Binding := by
  unfold resolveProgram Resolution.result at failed
  split at failed
  next => cases failed
  next some =>
    cases failed
    refine ⟨fun none => some (List.reverse_eq_nil_iff.mp none), fun e mem => ?_⟩
    rcases (resolveStmts_local .top program).faults .start e (List.mem_reverse.mp mem) with old | new
    · cases old
    · exact new

/-- At least one error, and none from a different stage than the others. -/
def OfOneStage (errors : List Error) : Prop :=
  errors ≠ [] ∧
    ((∀ e ∈ errors, e.Lexical) ∨ (∀ e ∈ errors, e.Syntactic) ∨ ∀ e ∈ errors, e.Binding)

theorem prepareProgram_error {lo : RefId} {source : List UInt8} {errors : List Error}
    (failed : prepareProgram lo source = .error errors) : OfOneStage errors := by
  -- Each stage is entered only if the one before has found nothing.
  unfold prepareProgram at failed
  cases scanned : scanTokens source with
  | error errors' =>
    rw [scanned] at failed
    cases failed
    obtain ⟨some, lexical⟩ := scanTokens_error scanned
    exact ⟨some, .inl lexical⟩
  | ok tokens =>
    rw [scanned] at failed
    change (parseProgram lo tokens >>= _) = _ at failed
    cases parsed : parseProgram lo tokens with
    | error errors' =>
      rw [parsed] at failed
      cases failed
      exact ⟨parseProgram_error_ne_nil parsed, .inr (.inl (parseProgram_blames parsed))⟩
    | ok result =>
      obtain ⟨program, hi⟩ := result
      rw [parsed] at failed
      change (resolveProgram program >>= _) = _ at failed
      cases resolved : resolveProgram program with
      | error errors' =>
        rw [resolved] at failed
        cases failed
        obtain ⟨some, binding⟩ := resolveProgram_error resolved
        exact ⟨some, .inr (.inr binding)⟩
      | ok distances =>
        rw [resolved] at failed
        cases failed

theorem OfOneStage.alike {errors : List Error} (stage : OfOneStage errors) {e : Error}
    (mem : e ∈ errors) : e.isStatic = true ∧ e.exitCode = 65 := by
  rcases stage.2 with lexical | syntactic | binding
  · have kind := lexical e mem
    cases e <;> first | exact ⟨rfl, rfl⟩ | cases kind
  · have kind := syntactic e mem
    cases e <;> first | exact ⟨rfl, rfl⟩ | cases kind
  · have kind := binding e mem
    cases e <;> first | exact ⟨rfl, rfl⟩ | cases kind

def Deed.FailsRunning : Deed → Prop
  | .done result => ∀ e, result = .error e → e.Dynamic
  | .change _ next => ∀ view, (next view).FailsRunning
  | .add _ _ respond next =>
    (∀ arguments line, (respond arguments line).FailsRunning) ∧ ∀ id, (next id).FailsRunning
  | .call _ _ next | .execute _ next | .evaluate _ next =>
    ∀ result, (∀ e, result = .error e → e.Dynamic) → (next result).FailsRunning

/-- A function of the host that fails only as running code does. -/
structure Native.FailsRunning (native : Native) : Prop where
  acts : native.Within Deed.FailsRunning
  dynamic : ∀ arguments line e, native.respond arguments line = .error e → e.Dynamic

def Region.running : Region where
  Code _ := True
  Callee _ _ := True
  Host := Native.FailsRunning
  Act := Deed.FailsRunning
  parts _ _ := trivial
  anonymous _ := trivial
  named _ := trivial
  method _ := trivial
  body _ := trivial
  acts regular := regular.acts

theorem Deed.FailsRunning.stays {deed : Deed} (regular : deed.FailsRunning) :
    deed.Stays .running Error.Dynamic := by
  induction deed with
  | done result => exact regular
  | change f next ih =>
    exact ⟨fun m here => ⟨fun _ _ _ => trivial, here.natives⟩, fun view => ih view (regular view)⟩
  | add name arity respond next _ ih =>
    refine ⟨⟨?_, fun _ _ _ failed => by cases failed⟩, fun id => ih id (regular.2 id)⟩
    rintro arguments line _ ⟨⟩
    exact regular.1 arguments line
  | call callee arguments next ih => exact fun result known => ih result (regular result known)
  | execute s next ih | evaluate e next ih =>
    exact ⟨trivial, fun result known => ih result (regular result known)⟩

def Realm.running : Realm where
  toRegion := .running
  Ref _ := True
  Fault := Error.Dynamic
  refs _ _ := trivial
  dynamic fault := fault
  host regular failed := regular.dynamic _ _ _ failed
  stays := Deed.FailsRunning.stays

theorem Realm.running_holds {h : Heap} (regular : ∀ native ∈ h.natives, native.FailsRunning) :
    Realm.running.Holds h :=
  ⟨fun _ _ _ => trivial, fun _ native found => regular native (Array.mem_of_getElem? found)⟩

namespace Session

theorem perform_failed {s : Session} {program : Prepared (List Stmt)} {fuel : Nat}
    {errors : List Error} (failed : (s.perform program (interpret fuel)).1 = .failed errors) :
    ∃ e, errors = [e] ∧
      ((∀ native ∈ s.machine.heap.natives, native.FailsRunning) → e.Dynamic) := by
  rw [perform_eq] at failed
  cases result : interpret fuel program.tree (s.machine.withTable (s.tableFor program)) with
  | ok a m =>
    rw [result] at failed
    cases failed
  | error halt m =>
    rw [result] at failed
    cases halt with
    | outOfFuel => cases failed
    | error e =>
      cases failed
      refine ⟨e, rfl, fun regular => ?_⟩
      have code : Realm.running.Code (.stmts program.tree) := trivial
      have lawful := interpret_lawful code fuel
      exact lawful.fault (s.machine.withTable (s.tableFor program)) e m
        (Realm.running_holds regular) result

theorem run_failed {s : Session} {fuel : Nat} {source : List UInt8} {errors : List Error}
    (failed : (s.run fuel source).1 = .failed errors) :
    (prepareProgram s.nextId source = .error errors ∧ OfOneStage errors ∧
      (s.run fuel source).2.machine = s.machine) ∨
    ((∃ prepared, prepareProgram s.nextId source = .ok prepared) ∧ ∃ e, errors = [e] ∧
      ((∀ native ∈ s.machine.heap.natives, native.FailsRunning) → e.Dynamic)) := by
  unfold run at failed ⊢
  cases prepares : prepareProgram s.nextId source with
  | error errors' =>
    rw [prepares] at failed
    cases failed
    exact .inl ⟨rfl, prepareProgram_error prepares, s.discard_machine programRule source⟩
  | ok prepared =>
    rw [prepares] at failed
    exact .inr ⟨⟨prepared, rfl⟩, perform_failed failed⟩

theorem run_failed_alike {s : Session} {fuel : Nat} {source : List UInt8} {errors : List Error}
    (failed : (s.run fuel source).1 = .failed errors) :
    ∃ static code, errors ≠ [] ∧ ∀ e ∈ errors, e.isStatic = static ∧ e.exitCode = code := by
  rcases run_failed failed with ⟨-, stage, -⟩ | ⟨-, e, rfl, -⟩
  · exact ⟨true, 65, stage.1, fun e mem => stage.alike mem⟩
  · refine ⟨e.isStatic, e.exitCode, List.cons_ne_nil _ _, fun e' mem => ?_⟩
    rw [List.mem_singleton.mp mem]
    exact ⟨rfl, rfl⟩

end Session

/-- A source that fails has errors of one stage before the run, and then nothing has changed, or one
single error of the run, and then it had passed all checks before. So all its errors are alike to
the outside, and the exit code of the first is that of every one. -/
theorem run_errors_of_one_stage :
    (∀ (s : Session) (fuel : Nat) (source : List UInt8),
      match s.run fuel source with
      | (.failed errors, s') =>
        (prepareProgram s.nextId source = .error errors ∧ OfOneStage errors ∧
          s'.machine = s.machine) ∨
        ((∃ prepared, prepareProgram s.nextId source = .ok prepared) ∧ ∃ e, errors = [e] ∧
          ((∀ native ∈ s.machine.heap.natives, native.FailsRunning) → e.Dynamic))
      | (.done _, _) | (.unfinished, _) =>
        ∃ prepared, prepareProgram s.nextId source = .ok prepared) ∧
    (∀ (s : Session) (fuel : Nat) (source : List UInt8) (errors : List Error),
      (s.run fuel source).1 = .failed errors →
      ∀ e ∈ errors, ∀ e' ∈ errors, e.isStatic = e'.isStatic ∧ e.exitCode = e'.exitCode) ∧
    ∀ (setting : Cli.Setting) (maxDepth : Nat) (source : String) (errors : List Error),
      ((setting.session maxDepth).run setting.fuel (Utf8.encode source)).1 = .failed errors →
      ∀ e ∈ errors, (Cli.run setting maxDepth source).1 = e.exitCode := by
  refine ⟨fun s fuel source => ?_, fun s fuel source errors failed e mem e' mem' => ?_,
    fun setting maxDepth source errors failed e mem => ?_⟩
  -- A run that does not fail has not been refused, since a refusal is a failure.
  · have accepted (passed : ∀ errors, (s.run fuel source).1 ≠ .failed errors) :
        ∃ prepared, prepareProgram s.nextId source = .ok prepared := by
      cases prepares : prepareProgram s.nextId source with
      | ok prepared => exact ⟨prepared, rfl⟩
      | error errors =>
        refine absurd ?_ (passed errors)
        unfold Session.run
        rw [prepares]
    have failed (errors : List Error) (h : (s.run fuel source).1 = .failed errors) :=
      Session.run_failed h
    cases outcome : s.run fuel source with
    | mk result s' =>
      rw [outcome] at accepted failed
      cases result with
      | done _ => exact accepted fun errors h => by cases h
      | unfinished => exact accepted fun errors h => by cases h
      | failed errors => exact failed errors rfl
  · obtain ⟨static, code, -, alike⟩ := Session.run_failed_alike failed
    rw [(alike e mem).1, (alike e' mem').1, (alike e mem).2, (alike e' mem').2]
    exact ⟨rfl, rfl⟩
  · obtain ⟨static, code, some, alike⟩ := Session.run_failed_alike failed
    obtain ⟨first, rest, rfl⟩ := List.exists_cons_of_ne_nil some
    unfold Cli.run
    cases outcome : (setting.session maxDepth).run setting.fuel (Utf8.encode source) with
    | mk result s' =>
      rw [outcome] at failed
      cases failed
      exact (alike first List.mem_cons_self).2.trans (alike e mem).2.symm

def Native.double : Native where
  name := "double"
  arity := 1
  respond arguments line :=
    match arguments with
    | [.number x] => .value (.number (2 * x))
    | _ => .error (.runtime (.native "double expects a number.") line)

theorem Native.double_failsRunning : Native.double.FailsRunning := by
  refine ⟨fun arguments line deed acts => ?_, fun arguments line e failed => ?_⟩
  · unfold Native.double at acts
    dsimp only at acts
    split at acts <;> cases acts
  · unfold Native.double at failed
    dsimp only at failed
    split at failed <;> cases failed
    trivial

def doubling : Session :=
  { Session.start .unlimited 0 with
    machine.heap := Heap.empty.addRoot [.clock, .double] }

theorem run_errors_of_one_stage_double :
    (doubling.run 9 "double(nil);".toUTF8.data.toList).1 =
      .failed [.runtime (.native "double expects a number.") 1] ∧
    ∃ e : Error, [.runtime (.native "double expects a number.") 1] = [e] ∧ e.Dynamic := by
  have failed : (doubling.run 9 "double(nil);".toUTF8.data.toList).1 =
      .failed [.runtime (.native "double expects a number.") 1] := by cbv
  have regular : ∀ native ∈ doubling.machine.heap.natives, native.FailsRunning := by
    intro native mem
    rcases List.mem_cons.mp (Array.mem_def.mp mem) with rfl | mem
    · exact ⟨Native.clock_discreet.within _, fun _ _ _ failed => by cases failed⟩
    · rw [List.mem_singleton.mp mem]
      exact Native.double_failsRunning
  have stages := run_errors_of_one_stage.1 doubling 9 "double(nil);".toUTF8.data.toList
  refine ⟨failed, ?_⟩
  cases outcome : doubling.run 9 "double(nil);".toUTF8.data.toList with
  | mk result s' =>
    rw [outcome] at failed stages
    cases failed
    rcases stages with ⟨-, stage, -⟩ | ⟨-, e, same, kind⟩
    · cases (stage.alike List.mem_cons_self).1
    · exact ⟨e, same, kind regular⟩

end Quill
