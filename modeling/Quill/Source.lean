import Quill.Error

set_option autoImplicit false

namespace Quill.Source

def byteOrderMark : List UInt8 :=
  [0xEF, 0xBB, 0xBF]

def withoutMark (bytes : List UInt8) : List UInt8 :=
  if byteOrderMark.isPrefixOf bytes then bytes.drop byteOrderMark.length else bytes

def ofFile (contents : Except String (List UInt8)) : Except Error String :=
  match contents with
  | .error message => .error (.io (.host message))
  | .ok bytes => (Utf8.decode (withoutMark bytes)).mapError .encoding

end Quill.Source
