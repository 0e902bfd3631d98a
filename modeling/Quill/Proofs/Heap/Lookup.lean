import Mathlib.Order.Bounds.Basic
import Quill.Proofs.Heap.Gains

set_option autoImplicit false

namespace Quill.Heap

/-- Every scope lies in an older one, if in any, so links never lead around in a circle. -/
def Forest (h : Heap) : Prop :=
  ∀ s p, h.parent? s = some p → p < s

/-- So many links lead from one scope outward to another. -/
inductive Links (h : Heap) : ScopeId → Nat → ScopeId → Prop where
  | here {s : ScopeId} : s < h.scopes.size → Links h s 0 s
  | outward {s p t : ScopeId} {d : Nat} :
      h.parent? s = some p → Links h p d t → Links h s (d + 1) t

def distancesTo (h : Heap) (s : ScopeId) (x : String) : Set Nat :=
  {d | ∃ t, h.Links s d t ∧ h.Binds t x}

/-- The first scope on the way outward that binds a name. -/
def Nearest (h : Heap) (s : ScopeId) (x : String) (t : ScopeId) : Prop :=
  ∃ d, IsLeast (h.distancesTo s x) d ∧ h.Links s d t

theorem forest_empty : empty.Forest :=
  fun _ _ link => by cases link

theorem Forest.addScope {h : Heap} (forest : h.Forest) {scope : Scope}
    (older : ∀ p, scope.parent = some p → p < h.scopes.size) : (h.addScope scope).Forest := by
  intro s p link
  rw [parent?_addScope] at link
  split at link
  next same => exact same ▸ older p link
  next => exact forest s p link

theorem Forest.write {h : Heap} (forest : h.Forest) (t : ScopeId) (x : String) (v : Value) :
    (h.write t x v).Forest :=
  fun s p link => forest s p ((h.parent?_write t x v s).symm.trans link)

section Links

variable {h : Heap} {s p t t' : ScopeId} {d : Nat} {x : String}

theorem Links.ancestor? (links : h.Links s d t) : h.ancestor? s d = some t := by
  induction links with
  | here => rfl
  | outward link _ ih => simp only [Heap.ancestor?, link, ih]

theorem Links.unique (links : h.Links s d t) (links' : h.Links s d t') : t = t' :=
  Option.some.inj (links.ancestor?.symm.trans links'.ancestor?)

theorem links_of_ancestor? (reached : h.ancestor? s d = some t) (lt : t < h.scopes.size) :
    h.Links s d t := by
  induction d generalizing s with
  | zero =>
    cases reached
    exact .here lt
  | succ d ih =>
    rw [Heap.ancestor?] at reached
    split at reached
    next => cases reached
    next p link => exact .outward link (ih reached)

theorem links_succ_iff (link : h.parent? s = some p) : h.Links s (d + 1) t ↔ h.Links p d t := by
  constructor
  · rintro (_ | ⟨link', links⟩)
    cases link.symm.trans link'
    exact links
  · exact .outward link

theorem not_links_succ (link : h.parent? s = none) : ¬ h.Links s (d + 1) t := by
  rintro (_ | ⟨link', -⟩)
  cases link.symm.trans link'

theorem zero_mem_distancesTo : 0 ∈ h.distancesTo s x ↔ h.Binds s x := by
  constructor
  · rintro ⟨t, ⟨⟩, binds⟩
    exact binds
  · intro binds
    exact ⟨s, .here binds.lt, binds⟩

theorem succ_mem_distancesTo (link : h.parent? s = some p) :
    d + 1 ∈ h.distancesTo s x ↔ d ∈ h.distancesTo p x :=
  exists_congr fun _ => and_congr_left' (links_succ_iff link)

theorem distancesTo_of_root (link : h.parent? s = none) (unbound : ¬ h.Binds s x) :
    h.distancesTo s x = ∅ := by
  refine Set.eq_empty_iff_forall_notMem.mpr fun d mem => ?_
  cases d with
  | zero => exact unbound (zero_mem_distancesTo.mp mem)
  | succ d =>
    obtain ⟨t, links, -⟩ := mem
    exact not_links_succ link links

theorem distancesTo_of_inner (link : h.parent? s = some p) (unbound : ¬ h.Binds s x)
    (none : h.distancesTo p x = ∅) : h.distancesTo s x = ∅ := by
  refine Set.eq_empty_iff_forall_notMem.mpr fun d mem => ?_
  cases d with
  | zero => exact unbound (zero_mem_distancesTo.mp mem)
  | succ d => exact (none ▸ (succ_mem_distancesTo link).mp mem : d ∈ (∅ : Set Nat))

theorem nearest_here (binds : h.Binds s x) : h.Nearest s x s :=
  ⟨0, ⟨zero_mem_distancesTo.mpr binds, fun _ _ => Nat.zero_le _⟩, .here binds.lt⟩

theorem nearest_outward (link : h.parent? s = some p) (unbound : ¬ h.Binds s x)
    (nearest : h.Nearest p x t) : h.Nearest s x t := by
  obtain ⟨d, ⟨mem, least⟩, links⟩ := nearest
  refine ⟨d + 1, ⟨(succ_mem_distancesTo link).mpr mem, fun k mem' => ?_⟩, .outward link links⟩
  cases k with
  | zero => exact absurd (zero_mem_distancesTo.mp mem') unbound
  | succ k => exact Nat.succ_le_succ (least ((succ_mem_distancesTo link).mp mem'))

theorem Nearest.unique (nearest : h.Nearest s x t) (nearest' : h.Nearest s x t') : t = t' := by
  obtain ⟨d, least, links⟩ := nearest
  obtain ⟨d', least', links'⟩ := nearest'
  cases least.unique least'
  exact links.unique links'

theorem Nearest.binds (nearest : h.Nearest s x t) : h.Binds t x := by
  obtain ⟨d, ⟨⟨t', links', binds⟩, -⟩, links⟩ := nearest
  exact links'.unique links ▸ binds

end Links

section Lookups

variable {h : Heap} {s t : ScopeId} {d : Nat} {x : String} {v : Value}

theorem slotIn?_eq_none (unbound : ¬ h.Binds s x) : h.slotIn? s x = none := by
  rw [slotIn?_eq, Option.map_eq_none_iff]
  exact Option.eq_none_iff_forall_ne_some.mpr fun v found => unbound ⟨v, found⟩

theorem nearest?_cases (forest : h.Forest) (s : ScopeId) (x : String) :
    (∃ t v, h.nearest? s x = some ⟨t, v⟩ ∧ h.Nearest s x t ∧ h.value? t x = some v) ∨
      h.nearest? s x = none ∧ h.distancesTo s x = ∅ := by
  -- Links lead to older scopes only, so the induction is on the scope that the walk starts at.
  induction s using Nat.strongRecOn with
  | _ s ih =>
    rw [nearest?]
    by_cases binds : h.Binds s x
    · obtain ⟨v, found⟩ := binds
      rw [slotIn?_of_value? found]
      exact .inl ⟨s, v, rfl, nearest_here ⟨v, found⟩, found⟩
    rw [slotIn?_eq_none binds]
    cases link : h.parent? s with
    | none => exact .inr ⟨rfl, distancesTo_of_root link binds⟩
    | some p =>
      have older := forest s p link
      simp only [older, if_true]
      rcases ih p older with ⟨t, v, walked, nearest, found⟩ | ⟨walked, none⟩
      · exact .inl ⟨t, v, walked, nearest_outward link binds nearest, found⟩
      · exact .inr ⟨walked, distancesTo_of_inner link binds none⟩

theorem slot_of_nearest (forest : h.Forest) (nearest : h.Nearest s x t)
    (found : h.value? t x = some v) (line : Nat) : h.slot s x line = .ok ⟨t, v⟩ := by
  rcases nearest?_cases forest s x with ⟨t', v', walked, nearest', found'⟩ | ⟨-, none⟩
  · cases nearest.unique nearest'
    cases found.symm.trans found'
    simp only [slot, walked]
  · obtain ⟨d, ⟨mem, -⟩, -⟩ := nearest
    exact absurd (none ▸ mem) (Set.notMem_empty d)

theorem slot_of_unbound (forest : h.Forest) (none : h.distancesTo s x = ∅) (line : Nat) :
    h.slot s x line = .error (.runtime (.undefinedVariable x) line) := by
  rcases nearest?_cases forest s x with ⟨t, v, -, ⟨d, ⟨mem, -⟩, -⟩, -⟩ | ⟨walked, -⟩
  · exact absurd (none ▸ mem) (Set.notMem_empty d)
  · simp only [slot, walked]

theorem slotAt_of_links (links : h.Links s d t) (found : h.value? t x = some v) (line : Nat) :
    h.slotAt s d x line = .ok ⟨t, v⟩ := by
  simp only [slotAt, links.ancestor?, slotIn?_of_value? found]

theorem slotAt_cases (h : Heap) (s : ScopeId) (d : Nat) (x : String) (line : Nat) :
    (∃ t v, h.slotAt s d x line = .ok ⟨t, v⟩ ∧ h.Links s d t ∧ h.value? t x = some v) ∨
      (∃ fault, h.slotAt s d x line = .error (.internal fault)) ∧ d ∉ h.distancesTo s x := by
  by_cases mem : d ∈ h.distancesTo s x
  · obtain ⟨t, links, v, found⟩ := mem
    exact .inl ⟨t, v, slotAt_of_links links found line, links, found⟩
  refine .inr ⟨?_, mem⟩
  unfold slotAt
  cases reached : h.ancestor? s d with
  | none => exact ⟨_, rfl⟩
  | some t =>
    have unbound : ¬ h.Binds t x := fun binds =>
      mem ⟨t, links_of_ancestor? reached binds.lt, binds⟩
    simp only [slotIn?_eq_none unbound]
    exact ⟨_, rfl⟩

end Lookups

/-- Looking a name up by walking and by jumping comes to the same as long as the jump is as far as
the nearest scope that binds it, also for writing. Where no scope on the way outward binds the name
both fail, walking by the program's fault and jumping not. And a jump sees nothing but the scope it
leads to. -/
theorem jumping_agrees {h : Heap} (forest : h.Forest) (s : ScopeId) (x : String) (line : Nat) :
    (∀ d, IsLeast (h.distancesTo s x) d →
      (∃ v, h.get s x line = .ok v ∧ h.getAt s d x line = .ok v) ∧
      ∀ v, ∃ h', h.assign s x v line = .ok h' ∧ h.assignAt s d x v line = .ok h') ∧
    ((∀ d t, h.Links s d t → ¬ h.Binds t x) →
      h.get s x line = .error (.runtime (.undefinedVariable x) line) ∧
      (∀ v, h.assign s x v line = .error (.runtime (.undefinedVariable x) line)) ∧
      ∀ d, (∃ fault, h.getAt s d x line = .error (.internal fault)) ∧
        ∀ v, ∃ fault, h.assignAt s d x v line = .error (.internal fault)) ∧
    ∀ d v, h.getAt s d x line = .ok v ↔ ∃ t, h.Links s d t ∧ h.value? t x = some v := by
  refine ⟨fun d least => ?_, fun unbound => ?_, fun d v => ?_⟩
  · obtain ⟨t, links, v, found⟩ := least.1
    have walked := slot_of_nearest forest ⟨d, least, links⟩ found line
    have jumped := slotAt_of_links links found line
    unfold get getAt assign assignAt
    rw [walked, jumped]
    exact ⟨⟨v, rfl, rfl⟩, fun _ => ⟨_, rfl, rfl⟩⟩
  · have none : h.distancesTo s x = ∅ :=
      Set.eq_empty_iff_forall_notMem.mpr fun d ⟨t, links, binds⟩ => unbound d t links binds
    have walked := slot_of_unbound forest none line
    unfold get getAt assign assignAt
    rw [walked]
    refine ⟨rfl, fun _ => rfl, fun d => ?_⟩
    rcases slotAt_cases h s d x line with ⟨t, v, -, links, found⟩ | ⟨⟨fault, jumped⟩, -⟩
    · exact absurd ⟨v, found⟩ (unbound d t links)
    · rw [jumped]
      exact ⟨⟨fault, rfl⟩, fun _ => ⟨fault, rfl⟩⟩
  · unfold getAt
    rcases slotAt_cases h s d x line with ⟨t, v', jumped, links, found⟩ | ⟨⟨fault, jumped⟩, away⟩
    · rw [jumped]
      constructor
      · rintro ⟨⟩
        exact ⟨t, links, found⟩
      -- Links lead from a scope to one scope only.
      · rintro ⟨t', links', found'⟩
        cases links.unique links'
        cases found.symm.trans found'
        rfl
    · rw [jumped]
      constructor
      · rintro ⟨⟩
      · rintro ⟨t, links, found⟩
        exact absurd ⟨t, links, v, found⟩ away

def shadowing : Heap :=
  ((empty.addScope ⟨⟨[("a", .nil), ("b", .nil)]⟩, none⟩).addScope
    ⟨⟨[("a", .boolean true)]⟩, some 0⟩).addScope ⟨{}, some 1⟩

theorem shadowing_forest : shadowing.Forest := by
  refine ((forest_empty.addScope fun p link => by cases link).addScope ?_).addScope ?_
  all_goals
    rintro p ⟨⟩
    decide

theorem jumping_agrees_shadowing :
    shadowing.Forest ∧ IsLeast (shadowing.distancesTo 2 "a") 1 ∧
    (∃ v, shadowing.get 2 "a" 1 = .ok v ∧ shadowing.getAt 2 1 "a" 1 = .ok v) ∧
    shadowing.getAt 2 2 "a" 1 = .ok .nil ∧
    (∀ d t, shadowing.Links 2 d t → ¬ shadowing.Binds t "c") ∧
    shadowing.get 2 "c" 1 = .error (.runtime (.undefinedVariable "c") 1) := by
  have two {d : Nat} {t : ScopeId} (links : shadowing.Links 1 d t) : shadowing.Links 2 (d + 1) t :=
    .outward rfl links
  have one : shadowing.Links 1 0 1 := .here (by decide)
  have least : IsLeast (shadowing.distancesTo 2 "a") 1 := by
    refine ⟨⟨1, two one, _, rfl⟩, fun k mem => ?_⟩
    cases k with
    | zero =>
      obtain ⟨v, found⟩ := zero_mem_distancesTo.mp mem
      cases found
    | succ k => exact Nat.succ_le_succ (Nat.zero_le k)
  have unbound (d : Nat) (t : ScopeId) (_ : shadowing.Links 2 d t) : ¬ shadowing.Binds t "c" := by
    rintro ⟨v, found⟩
    match t with
    | 0 | 1 | 2 | t + 3 => cases found
  obtain ⟨agree, -, jump⟩ := jumping_agrees shadowing_forest 2 "a" 1
  obtain ⟨-, fail, -⟩ := jumping_agrees shadowing_forest 2 "c" 1
  refine ⟨shadowing_forest, least, (agree 1 least).1, ?_, unbound, (fail unbound).1⟩
  exact (jump 2 .nil).mpr ⟨0, two (.outward rfl (.here (by decide))), rfl⟩

end Quill.Heap
