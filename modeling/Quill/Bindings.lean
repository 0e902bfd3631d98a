set_option autoImplicit false

namespace Quill

/-- Values by name, in the order the names were first given. -/
structure Bindings (α : Type) where
  entries : List (String × α)

namespace Bindings

variable {α : Type}

def empty : Bindings α :=
  ⟨[]⟩

instance : EmptyCollection (Bindings α) := ⟨empty⟩

def lookup (name : String) : List (String × α) → Option α
  | [] => none
  | (n, v) :: rest => if name = n then some v else lookup name rest

def find? (b : Bindings α) (name : String) : Option α :=
  lookup name b.entries

def contains (b : Bindings α) (name : String) : Bool :=
  (b.find? name).isSome

def names (b : Bindings α) : List String :=
  b.entries.map Prod.fst

def put (name : String) (value : α) : List (String × α) → List (String × α)
  | [] => [(name, value)]
  | (n, v) :: rest => if name = n then (n, value) :: rest else (n, v) :: put name value rest

def insert (b : Bindings α) (name : String) (value : α) : Bindings α :=
  ⟨put name value b.entries⟩

theorem lookup_put (name : String) (value : α) (entries : List (String × α)) (n : String) :
    lookup n (put name value entries) = if n = name then some value else lookup n entries := by
  induction entries with
  | nil => simp [put, lookup]
  | cons entry rest ih =>
    obtain ⟨m, v⟩ := entry
    by_cases hm : name = m
    · subst hm
      by_cases h : n = name <;> simp [put, lookup, h]
    · by_cases h : n = m
      · simp [put, lookup, hm, h, Ne.symm hm]
      · simp [put, lookup, hm, h, ih]

@[simp] theorem find?_empty (n : String) : (empty : Bindings α).find? n = none := rfl

theorem find?_insert (b : Bindings α) (name : String) (value : α) (n : String) :
    (b.insert name value).find? n = if n = name then some value else b.find? n :=
  lookup_put name value b.entries n

end Bindings

end Quill
