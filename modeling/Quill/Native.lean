import Quill.Heap.Objects
import Quill.Resolution.Distances

set_option autoImplicit false

namespace Quill

/-- What the clock of the host shows, reading after reading; nothing is known about it. -/
structure Clock where
  times : Nat → Float
  readings : Nat

namespace Clock

def seconds (c : Clock) : Float :=
  c.times c.readings

def ticking (origin : Nat) : Clock :=
  ⟨fun readings => (origin + readings).toFloat / 1000000, 0⟩

instance : Coe Nat Clock :=
  ⟨ticking⟩

instance (origin : Nat) : OfNat Clock origin :=
  ⟨origin⟩

end Clock

/-- What a function of the host has in its hands while it is called: the machine, except that it
can take no other function of the host away and prints only by executing `print`. What such
functions keep to themselves from call to call is the `memory`. -/
structure View where
  scopes : Array Scope
  closures : Array Closure
  classes : Array Class
  instances : Array Instance
  globals : ScopeId
  scope : ScopeId
  distances : Distances
  clock : Clock
  depth : Nat
  maxDepth : Nat
  memory : List Value

/-- What a function of the host does with the machine, step by step. An error of code it runs is no
more than a result to it. -/
inductive Deed where
  | done (result : Except Error Value)
  | change (f : View → View) (next : View → Deed)
  | add (name : String) (arity : Nat) (respond : List Value → Nat → Deed) (next : NativeId → Deed)
  | call (callee : Callable) (arguments : List Value) (next : Except Error Value → Deed)
  | execute (s : Stmt) (next : Except Error Flow → Deed)
  | evaluate (e : Expr) (next : Except Error Value → Deed)

/-- What a function of the host answers. But for `act`, it leaves the machine alone. -/
inductive Reply where
  | value (v : Value)
  | error (e : Error)
  | invoke (callee : Callable) (arguments : List Value)
  | now
  | act (deed : Deed)

structure Native where
  name : String
  arity : Nat
  respond : List Value → Nat → Reply

def Native.clock : Native where
  name := "clock"
  arity := 0
  respond _ _ := .now

end Quill
