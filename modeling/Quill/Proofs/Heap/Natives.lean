import Quill.Heap

set_option autoImplicit false

namespace Quill

def Native.Within (A : Deed → Prop) (native : Native) : Prop :=
  ∀ arguments line deed, native.respond arguments line = .act deed → A deed

/-- A function of the host that leaves the machine alone, whatever it is called with. -/
def Native.Discreet (native : Native) : Prop :=
  native.Within fun _ => False

/-- What a function of the host changes by itself and which statements it executes is restricted. It
may still call and evaluate what it likes. -/
def Deed.Only (Changes : (View → View) → Prop) (Executes : Stmt → Prop) : Deed → Prop
  | .done _ => True
  | .change f next => Changes f ∧ ∀ view, (next view).Only Changes Executes
  | .add _ _ respond next =>
    (∀ arguments line, (respond arguments line).Only Changes Executes) ∧
      ∀ id, (next id).Only Changes Executes
  | .call _ _ next | .evaluate _ next => ∀ result, (next result).Only Changes Executes
  | .execute s next => Executes s ∧ ∀ result, (next result).Only Changes Executes

theorem Native.clock_discreet : Native.clock.Discreet :=
  fun _ _ _ reply => by cases reply

theorem Native.Discreet.within {native : Native} (discreet : native.Discreet) (A : Deed → Prop) :
    native.Within A :=
  fun arguments line deed reply => (discreet arguments line deed reply).elim

namespace Heap

def Hosts (A : Deed → Prop) (h : Heap) : Prop :=
  ∀ native ∈ h.natives, native.Within A

def Discreet (h : Heap) : Prop :=
  ∀ native ∈ h.natives, native.Discreet

variable {A : Deed → Prop} {h h' : Heap}

theorem Hosts.of_natives (hosts : h.Hosts A) (same : h'.natives = h.natives) : h'.Hosts A := by
  unfold Hosts
  rw [same]
  exact hosts

theorem Hosts.found (hosts : h.Hosts A) {id : NativeId} {native : Native}
    (found : h.natives[id]? = some native) : native.Within A :=
  hosts native (Array.mem_of_getElem? found)

theorem Hosts.addNative (hosts : h.Hosts A) {native : Native} (new : native.Within A) :
    (h.addNative native).Hosts A := by
  intro native' mem
  rcases Array.mem_push.mp mem with old | rfl
  · exact hosts native' old
  · exact new

theorem Discreet.hosts (discreet : h.Discreet) (A : Deed → Prop) : h.Hosts A :=
  fun native mem => (discreet native mem).within A

theorem Discreet.found (discreet : h.Discreet) {id : NativeId} {native : Native}
    (found : h.natives[id]? = some native) : native.Discreet :=
  Hosts.found discreet found

theorem Discreet.of_natives (discreet : h.Discreet) (same : h'.natives = h.natives) : h'.Discreet :=
  Hosts.of_natives discreet same

theorem Discreet.addNative (discreet : h.Discreet) {native : Native} (new : native.Discreet) :
    (h.addNative native).Discreet :=
  Hosts.addNative discreet new

theorem discreet_of_clock (natives : h.natives = #[.clock]) : h.Discreet := by
  intro native mem
  rw [natives, Array.mem_singleton] at mem
  exact mem ▸ Native.clock_discreet

end Heap

end Quill
