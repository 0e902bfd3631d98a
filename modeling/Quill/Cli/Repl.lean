import Quill.Session

set_option autoImplicit false

namespace Quill.Cli

structure Streams where
  out : String
  err : String

def Streams.append (a b : Streams) : Streams :=
  ⟨a.out ++ b.out, a.err ++ b.err⟩

def unlines (texts : List String) : String :=
  String.join (texts.map (· ++ "\n"))

def reports (errors : List Error) : String :=
  unlines (errors.map Error.message)

def printedSince (s : Session) (size : Nat) : String :=
  let written := s.machine.sink.written
  Utf8.decodeLossy (written.extract size written.size).toList

structure Setting where
  fuel : Nat
  clock : Clock

def Setting.session (setting : Setting) (maxDepth : Nat) : Session :=
  (Session.start .unlimited setting.clock).withMaxDepth maxDepth

def prompt : String := "> "

def unreadableLine : String :=
  "Error: Failed to read from stdin\n\nCaused by:\n    stream did not contain valid UTF-8\n"

/-- Runs one line. An error only discards the line it is in. -/
def turn (setting : Setting) (s : Session) (line : String) : Streams × Session :=
  let size := s.machine.sink.written.size
  let (outcome, s) := s.run setting.fuel (Utf8.encode line)
  let errors := match outcome with
    | .failed errors => reports errors
    | .done () | .unfinished => ""
  (⟨printedSince s size, errors⟩, s)

/-- Lines end with a newline, or a carriage return and a newline; the last one may lack it. -/
def linesFrom : List UInt8 → List UInt8 → List (List UInt8)
  | [], [] => []
  | line, [] => [line.reverse]
  | line, b :: rest =>
    if b = 10 then
      match line with
      | 13 :: line => line.reverse :: linesFrom [] rest
      | line => line.reverse :: linesFrom [] rest
    else linesFrom (b :: line) rest

def dialogue (setting : Setting) : Session → List (List UInt8) → Streams → Nat × Streams
  | _, [], streams => (0, streams.append ⟨prompt ++ "\n", ""⟩)
  | s, line :: rest, streams =>
    match Utf8.decode line with
    | .error _ => (1, streams.append ⟨prompt, unreadableLine⟩)
    | .ok text =>
      let (written, s) := turn setting s text
      dialogue setting s rest ((streams.append ⟨prompt, ""⟩).append written)

def repl (setting : Setting) (maxDepth : Nat) (input : List UInt8) : Nat × Streams :=
  dialogue setting (setting.session maxDepth) (linesFrom [] input) ⟨"", ""⟩

end Quill.Cli
