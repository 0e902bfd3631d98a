set_option autoImplicit false

namespace Quill

/-- Where printed text goes: the bytes accepted so far, how many are accepted in all, and whether
flushing fails. -/
structure Sink where
  written : ByteArray
  limit : Option Nat
  flushFails : Bool

namespace Sink

def unlimited : Sink :=
  ⟨.empty, none, false⟩

def accepts (s : Sink) (offered : Nat) : Nat :=
  match s.limit with
  | none => offered
  | some limit => min offered (limit - s.written.size)

def write (s : Sink) (bytes : ByteArray) : Sink :=
  { s with written := s.written ++ bytes.extract 0 (s.accepts bytes.size) }

end Sink

end Quill
