import Std.Time.DateTime.Timestamp
import Quill.Cli

set_option autoImplicit false

namespace Quill.Main

def fuel : Nat := 1000000000000000

def usage : String :=
  "usage: quill [--log] [--max-call-depth N] (tokenize [--json] | parse | evaluate | run) [FILE]"

def now : IO Nat := do
  let t ← Std.Time.Timestamp.now
  return (t.toNanosecondsSinceUnixEpoch.val / 1000).toNat

def hostMessage : IO.Error → String
  | .noFileOrDirectory .. => "No such file or directory (os error 2)"
  | .permissionDenied .. => "Permission denied (os error 13)"
  | .inappropriateType .. => "No such device (os error 19)"
  | e => toString e

def readFile (name : String) : IO (Except String (List UInt8)) := do
  try return .ok (← IO.FS.readBinFile name).toList
  catch e => return .error (hostMessage e)

def write (streams : Cli.Streams) : IO Unit := do
  IO.print streams.out
  (← IO.getStdout).flush
  IO.eprint streams.err

partial def readLine (input : IO.FS.Stream) (found : List UInt8) : IO (List UInt8) := do
  match (← input.read 1).toList with
  | [] => return found.reverse
  | b :: _ => if b = 10 then return (b :: found).reverse else readLine input (b :: found)

partial def converse (setting : Cli.Setting) (s : Session) : IO UInt32 := do
  write ⟨Cli.prompt, ""⟩
  match Cli.linesFrom [] (← readLine (← IO.getStdin) []) with
  | [] =>
    write ⟨"\n", ""⟩
    return 0
  | line :: _ =>
    match Utf8.decode line with
    | .error _ =>
      write ⟨"", Cli.unreadableLine⟩
      return 1
    | .ok text =>
      let time ← now
      let (streams, s) := Cli.turn setting { s with machine.clock := time } text
      write streams
      converse setting s

def perform (command : Cli.Command) (setting : Cli.Setting) : IO UInt32 := do
  let contents ← match command.file with
    | some name => readFile name
    | none => pure (.ok [])
  let (code, streams) := command.perform ⟨setting, [], fun _ => contents⟩
  write streams
  return UInt32.ofNat code

end Quill.Main

def main (arguments : List String) : IO UInt32 := do
  match Quill.Cli.Command.ofArguments? arguments with
  | none =>
    IO.eprintln Quill.Main.usage
    return 2
  | some command =>
    if command.log then IO.FS.writeFile "app.log" ""
    let setting := ⟨Quill.Main.fuel, ← Quill.Main.now⟩
    match command.action, command.file with
    | .run, none => Quill.Main.converse setting (setting.session command.maxDepth)
    | _, _ => Quill.Main.perform command setting
