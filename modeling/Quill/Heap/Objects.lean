import Quill.Bindings
import Quill.Tree
import Quill.Value

set_option autoImplicit false

namespace Quill

def Literal.value : Literal → Value
  | .nil => .nil
  | .boolean b => .boolean b
  | .number x => .number x
  | .string s => .string s

structure Scope where
  vars : Bindings Value
  parent : Option ScopeId

structure Closure where
  code : Function
  scope : ScopeId
  isInitializer : Bool

structure Class where
  name : String
  superclass : Option ClassId
  methods : Bindings FunctionId

structure Instance where
  classId : ClassId
  fields : Bindings Value

end Quill
