import Quill.Cli.Arguments
import Quill.Cli.Repl
import Quill.Source
import Quill.Text.Quoted
import Quill.Tree.Printer

set_option autoImplicit false

namespace Quill.Cli

structure Surroundings where
  setting : Setting
  input : List UInt8
  file : String → Except String (List UInt8)

structure Exit where
  code : Nat
  streams : Streams
  logged : Bool

def failure (out : String) (errors : List Error) : Nat × Streams :=
  ((errors.head?.map Error.exitCode).getD 0, ⟨out, reports errors⟩)

def cutOff (out : String) : Nat × Streams :=
  (70, ⟨out, ""⟩)

def tokenize (json : Bool) (source : String) : Nat × Streams :=
  let items := scan (Utf8.encode source)
  let tokens := tokensOf items
  let errors := errorsOf items
  let out :=
    if json then (Json.array (tokens.map Token.toJson)).render .pretty ++ "\n"
    else unlines (tokens.map Token.display)
  (if errors.isEmpty then 0 else 65, ⟨out, reports errors⟩)

def parse (source : String) : Nat × Streams :=
  match scanTokens (Utf8.encode source) >>= parseProgram 0 with
  | .error errors => failure "" errors
  | .ok (program, _) => (0, ⟨unlines (program.map Stmt.render), ""⟩)

def evaluate (setting : Setting) (maxDepth : Nat) (source : String) : Nat × Streams :=
  let (outcome, s) := (setting.session maxDepth).evaluate setting.fuel (Utf8.encode source)
  let out := printedSince s 0
  match outcome with
  | .done value => (0, ⟨out ++ s.machine.heap.display value ++ "\n", ""⟩)
  | .failed errors => failure out errors
  | .unfinished => cutOff out

def run (setting : Setting) (maxDepth : Nat) (source : String) : Nat × Streams :=
  let (outcome, s) := (setting.session maxDepth).run setting.fuel (Utf8.encode source)
  let out := printedSince s 0
  match outcome with
  | .done () => (0, ⟨out, ""⟩)
  | .failed errors => failure out errors
  | .unfinished => cutOff out

def Command.onSource (command : Command) (setting : Setting) (source : String) : Nat × Streams :=
  match command.action with
  | .tokenize json => tokenize json source
  | .parse => parse source
  | .evaluate => evaluate setting command.maxDepth source
  | .run => run setting command.maxDepth source

def Command.onFile (command : Command) (s : Surroundings) (name : String) : Nat × Streams :=
  match Source.ofFile (s.file name) with
  | .ok source => command.onSource s.setting source
  | .error e =>
    (e.exitCode, ⟨"", "Failed to read " ++ Quoted.encode name ++ ": " ++ e.message ++ "\n"⟩)

def Command.withoutFile (command : Command) (s : Surroundings) : Nat × Streams :=
  match command.action with
  | .run => repl s.setting command.maxDepth s.input
  | _ => (0, ⟨"No input filepath was provided. Exiting...\n", ""⟩)

def Command.perform (command : Command) (s : Surroundings) : Nat × Streams :=
  match command.file with
  | some name => command.onFile s name
  | none => command.withoutFile s

def Exit.ofArguments (s : Surroundings) (arguments : List String) : Exit :=
  match Command.ofArguments? arguments with
  | none => ⟨2, ⟨"", ""⟩, false⟩
  | some command =>
    let (code, streams) := command.perform s
    ⟨code, streams, command.log⟩

end Quill.Cli
