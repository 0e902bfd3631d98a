import Std.Data.TreeMap
import Quill.Tree

set_option autoImplicit false

namespace Quill

/-- How many scopes out from a reference its binding lies. A reference without an entry means a
global. -/
abbrev Distances := Std.TreeMap RefId Nat

def Distances.merge (old new : Distances) : Distances :=
  old ∪ new

end Quill
