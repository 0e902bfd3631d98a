import Quill.Machine
import Quill.Proofs.Heap.Lookup

set_option autoImplicit false

namespace Quill

namespace Heap

/-- A heap with one binding changed, and what is found on it when walking outward. -/
structure Rebinds (h : Heap) (t : ScopeId) (x : String) (v : Value) (h' : Heap) : Prop where
  bound : h.Binds t x
  binding : h'.value? t x = some v
  others : ∀ t' y, ¬ (t' = t ∧ y = x) → h'.value? t' y = h.value? t' y
  size : h'.scopes.size = h.scopes.size
  parents : ∀ s, h'.parent? s = h.parent? s
  objects : { h' with scopes := h.scopes } = h
  seen : ∀ e line, h.Nearest e x t → h'.get e x line = .ok v
  unseen : ∀ e y line, ¬ (y = x ∧ h.Nearest e x t) → h'.get e y line = h.get e y line

section Write

variable {h : Heap} {t : ScopeId} {x : String} (v : Value)

theorem links_write (e : ScopeId) (d : Nat) (a : ScopeId) :
    (h.write t x v).Links e d a ↔ h.Links e d a := by
  have size : (h.write t x v).scopes.size = h.scopes.size := by simp [write]
  constructor
  · intro links
    induction links with
    | here lt => exact .here (size ▸ lt)
    | outward link _ ih => exact .outward ((h.parent?_write t x v _).symm.trans link) ih
  · intro links
    induction links with
    | here lt => exact .here (size ▸ lt)
    | outward link _ ih => exact .outward ((h.parent?_write t x v _).trans link) ih

theorem binds_write_bound (bound : h.Binds t x) (a : ScopeId) (y : String) :
    (h.write t x v).Binds a y ↔ h.Binds a y := by
  rw [binds_write_iff bound.lt, or_iff_left_iff_imp]
  rintro ⟨rfl, rfl⟩
  exact bound

theorem distancesTo_write (bound : h.Binds t x) (e : ScopeId) (y : String) :
    (h.write t x v).distancesTo e y = h.distancesTo e y := by
  ext d
  exact exists_congr fun a => and_congr (links_write v e d a) (binds_write_bound v bound a y)

theorem nearest_write (bound : h.Binds t x) (e : ScopeId) (y : String) (a : ScopeId) :
    (h.write t x v).Nearest e y a ↔ h.Nearest e y a := by
  unfold Nearest
  rw [distancesTo_write v bound]
  exact exists_congr fun d => and_congr_right' (links_write v e d a)

theorem value?_write_elsewhere {t' : ScopeId} {y : String} (elsewhere : ¬ (t' = t ∧ y = x)) :
    (h.write t x v).value? t' y = h.value? t' y := by
  rw [value?_write, if_neg]
  rintro ⟨rfl, rfl, -⟩
  exact elsewhere ⟨rfl, rfl⟩

theorem get_write_unseen (forest : h.Forest) (bound : h.Binds t x) {e : ScopeId} {y : String}
    (unseen : ¬ (y = x ∧ h.Nearest e x t)) (line : Nat) :
    (h.write t x v).get e y line = h.get e y line := by
  have forest' := forest.write t x v
  unfold get
  -- The way outward is the one before, and so is what the scopes on it bind.
  rcases nearest?_cases forest e y with ⟨a, w, -, nearest, found⟩ | ⟨-, none⟩
  · have elsewhere : ¬ (a = t ∧ y = x) := by
      rintro ⟨rfl, rfl⟩
      exact unseen ⟨rfl, nearest⟩
    have found' := (value?_write_elsewhere v elsewhere).trans found
    have nearest' := (nearest_write v bound e y a).mpr nearest
    rw [slot_of_nearest forest nearest found, slot_of_nearest forest' nearest' found']
  · have none' := (distancesTo_write v bound e y).trans none
    rw [slot_of_unbound forest none, slot_of_unbound forest' none']

theorem rebinds_write (forest : h.Forest) (bound : h.Binds t x) :
    h.Rebinds t x v (h.write t x v) := by
  have binding : (h.write t x v).value? t x = some v := by
    rw [value?_write, if_pos ⟨rfl, rfl, bound.lt⟩]
  refine ⟨bound, binding, fun _ _ => value?_write_elsewhere v, by simp [write],
    h.parent?_write t x v, rfl, fun e line nearest => ?_, fun e y line unseen => ?_⟩
  · have nearest' := (nearest_write v bound e x t).mpr nearest
    unfold get
    rw [slot_of_nearest (forest.write t x v) nearest' binding]
    rfl
  · exact get_write_unseen v forest bound unseen line

end Write

theorem assign_cases {h : Heap} (forest : h.Forest) (s : ScopeId) (x : String) (v : Value)
    (line : Nat) :
    (∃ t h', h.assign s x v line = .ok h' ∧ h.Nearest s x t ∧ h.Rebinds t x v h') ∨
      (∃ e, h.assign s x v line = .error e) ∧ h.distancesTo s x = ∅ := by
  unfold assign
  rcases nearest?_cases forest s x with ⟨t, w, -, nearest, found⟩ | ⟨-, none⟩
  · rw [slot_of_nearest forest nearest found]
    exact .inl ⟨t, _, rfl, nearest, rebinds_write v forest ⟨w, found⟩⟩
  · rw [slot_of_unbound forest none]
    exact .inr ⟨⟨_, rfl⟩, none⟩

theorem assignAt_cases {h : Heap} (forest : h.Forest) (s : ScopeId) (d : Nat) (x : String)
    (v : Value) (line : Nat) :
    (∃ t h', h.assignAt s d x v line = .ok h' ∧ h.Links s d t ∧ h.Rebinds t x v h') ∨
      (∃ e, h.assignAt s d x v line = .error e) ∧ d ∉ h.distancesTo s x := by
  unfold assignAt
  rcases slotAt_cases h s d x line with ⟨t, w, jumped, links, found⟩ | ⟨⟨fault, jumped⟩, away⟩
  · rw [jumped]
    exact .inl ⟨t, _, rfl, links, rebinds_write v forest ⟨w, found⟩⟩
  · rw [jumped]
    exact .inr ⟨⟨_, rfl⟩, away⟩

end Heap

def Machine.afterwards (m : Machine) : Except Error Heap → EStateM.Result Halt Machine Unit
  | .ok h => .ok () { m with heap := h }
  | .error e => .error (.error e) m

theorem Run.assignNearest_eq (name : Token) (v : Value) (m : Machine) :
    assignNearest name v m = m.afterwards (m.heap.assign m.scope name.lexeme v name.line) := by
  unfold assignNearest Heap.assign
  cases m.heap.slot m.scope name.lexeme name.line <;> rfl

theorem Run.writeRef_eq (id : RefId) (name : Token) (v : Value) (m : Machine) :
    writeRef id name v m = m.afterwards (match m.distances[id]? with
      | some d => m.heap.assignAt m.scope d name.lexeme v name.line
      | none => m.heap.assign m.globals name.lexeme v name.line) := by
  unfold writeRef slotOf Heap.assign Heap.assignAt
  cases m.distances[id]? with
  | some d =>
    dsimp only
    cases m.heap.slotAt m.scope d name.lexeme name.line <;> rfl
  | none =>
    dsimp only
    cases m.heap.slot m.globals name.lexeme name.line <;> rfl

/-- An assignment succeeds exactly if there is a binding to change: any on the way outward if it
walks, and one in the scope it leads to if it jumps. It changes that binding, the nearest one if it
walks, and nothing else, and afterwards the new value is found from every scope that is nearest to
that binding, and what was found before from all others. A machine whose assignment fails is as it
was. -/
theorem assigning_rebinds {h : Heap} (forest : h.Forest) (s : ScopeId) (x : String) (v : Value)
    (line : Nat) :
    ((∃ h', h.assign s x v line = .ok h') ↔ ∃ d t, h.Links s d t ∧ h.Binds t x) ∧
    (∀ h', h.assign s x v line = .ok h' → ∃ t, h.Nearest s x t ∧ h.Rebinds t x v h') ∧
    (∀ d, ((∃ h', h.assignAt s d x v line = .ok h') ↔ ∃ t, h.Links s d t ∧ h.Binds t x) ∧
      ∀ h', h.assignAt s d x v line = .ok h' → ∃ t, h.Links s d t ∧ h.Rebinds t x v h') ∧
    (∀ name m, Run.assignNearest name v m =
      m.afterwards (m.heap.assign m.scope name.lexeme v name.line)) ∧
    ∀ id name m, Run.writeRef id name v m =
      m.afterwards (match m.distances[id]? with
        | some d => m.heap.assignAt m.scope d name.lexeme v name.line
        | none => m.heap.assign m.globals name.lexeme v name.line) := by
  refine ⟨?_, fun h' assigned => ?_, fun d => ⟨?_, fun h' assigned => ?_⟩,
    fun name => Run.assignNearest_eq name v, fun id name => Run.writeRef_eq id name v⟩
  -- Each of the two comes to one of two ends, which says when it succeeds and what it does then.
  · rcases h.assign_cases forest s x v line with ⟨t, h', done, ⟨d, ⟨mem, -⟩, -⟩, -⟩ | ⟨⟨e, failed⟩, none⟩
    · exact ⟨fun _ => ⟨d, mem⟩, fun _ => ⟨h', done⟩⟩
    · rw [failed]
      exact ⟨nofun, fun ⟨d, mem⟩ => absurd (none ▸ mem : d ∈ (∅ : Set Nat)) (Set.notMem_empty d)⟩
  · rcases h.assign_cases forest s x v line with ⟨t, h'', done, nearest, rebinds⟩ | ⟨⟨e, failed⟩, -⟩
    · cases done.symm.trans assigned
      exact ⟨t, nearest, rebinds⟩
    · cases failed.symm.trans assigned
  · rcases h.assignAt_cases forest s d x v line with ⟨t, h', done, links, rebinds⟩ | ⟨⟨e, failed⟩, away⟩
    · exact ⟨fun _ => ⟨t, links, rebinds.bound⟩, fun _ => ⟨h', done⟩⟩
    · rw [failed]
      exact ⟨nofun, fun mem => absurd mem away⟩
  · rcases h.assignAt_cases forest s d x v line with ⟨t, h'', done, links, rebinds⟩ | ⟨⟨e, failed⟩, -⟩
    · cases done.symm.trans assigned
      exact ⟨t, links, rebinds⟩
    · cases failed.symm.trans assigned

open Heap in
theorem assigning_rebinds_shadowing :
    shadowing.Forest ∧ ∃ h', shadowing.assign 2 "a" (.boolean false) 1 = .ok h' ∧
      h'.get 2 "a" 1 = .ok (.boolean false) ∧ h'.get 1 "a" 1 = .ok (.boolean false) ∧
      h'.get 0 "a" 1 = .ok .nil ∧ h'.get 2 "b" 1 = .ok .nil := by
  have bound : shadowing.Binds 1 "a" := ⟨_, rfl⟩
  have unbound : ¬ shadowing.Binds 2 "a" := by
    rintro ⟨v, found⟩
    cases found
  have nearest : shadowing.Nearest 2 "a" 1 := nearest_outward rfl unbound (nearest_here bound)
  obtain ⟨succeeds, walks, -⟩ :=
    assigning_rebinds shadowing_forest 2 "a" (.boolean false) 1
  obtain ⟨h', assigned⟩ := succeeds.mpr ⟨1, 1, .outward rfl (.here (by decide)), bound⟩
  obtain ⟨t, nearest', rebinds⟩ := walks h' assigned
  cases nearest'.unique nearest
  have outer : ¬ ("a" = "a" ∧ shadowing.Nearest 0 "a" 1) := fun ⟨_, nearest⟩ => by
    have root : shadowing.Nearest 0 "a" 0 := nearest_here ⟨_, rfl⟩
    cases root.unique nearest
  have other : ¬ ("b" = "a" ∧ shadowing.Nearest 2 "a" 1) := fun same => absurd same.1 (by decide)
  refine ⟨shadowing_forest, h', assigned, rebinds.seen 2 1 nearest,
    rebinds.seen 1 1 (nearest_here bound), ?_, ?_⟩
  · exact (rebinds.unseen 0 "a" 1 outer).trans (by cbv)
  · exact (rebinds.unseen 2 "b" 1 other).trans (by cbv)

end Quill
