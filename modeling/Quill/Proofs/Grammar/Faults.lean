import Quill.Proofs.Grammar.Invariants

set_option autoImplicit false

namespace Quill

def Error.Syntactic : Error → Prop
  | .syntactic .. => True
  | _ => False

def Cursor.Blames (c : Cursor) : Prop :=
  ∀ e ∈ c.reported, e.Syntactic

theorem Cursor.Blames.report {c : Cursor} (blames : c.Blames) {e : Error} (fault : e.Syntactic) :
    (c.report e).Blames := by
  intro e' mem
  rcases List.mem_cons.mp mem with rfl | mem
  · exact fault
  · exact blames e' mem

def Cursor.blaming : Cursor.Invariant where
  Holds := Cursor.Blames
  Thrown := Error.Syntactic
  ahead _ blames := blames
  count blames := blames
  report blames fault := blames.report fault
  syntactic _ _ := trivial

theorem parseProgram_blames {lo : RefId} {tokens : List Token} {errors : List Error}
    (failed : parseProgram lo tokens = .error errors) : ∀ e ∈ errors, e.Syntactic := by
  have start : (Cursor.start lo tokens).Blames := fun e mem => by cases mem
  have read := programRule_keeps (I := Cursor.blaming) (Cursor.start lo tokens) start
  unfold parseProgram parseWith at failed
  cases result : programRule (Cursor.start lo tokens) with
  | ok program c =>
    rw [result] at failed read
    have blames : c.Blames := read
    dsimp only at failed
    split at failed <;> cases failed
    exact fun e mem => blames e (List.mem_reverse.mp mem)
  | error e c =>
    rw [result] at failed read
    have blames : c.Blames ∧ e.Syntactic := ⟨read.2, read.1⟩
    cases failed
    exact fun e mem => blames.1.report blames.2 e (List.mem_reverse.mp mem)

end Quill
