set_option autoImplicit false

namespace Quill.Cli

inductive Action where
  | tokenize (json : Bool)
  | parse
  | evaluate
  | run
  deriving DecidableEq

structure Command where
  action : Action
  file : Option String
  log : Bool
  maxDepth : Nat
  deriving DecidableEq

def defaultMaxDepth : Nat := 1024

/-- The flags seen so far on one side of the word. No flag may be given twice there. -/
structure Flags where
  log : Bool := false
  maxDepth : Option Nat := none
  json : Bool := false
  jsonAllowed : Bool := false
  deriving DecidableEq

def readCount? (text : String) : Option Nat :=
  let digits := match text.toList with
    | '+' :: rest => rest
    | chars => chars
  let value : Nat := digits.foldl (fun n c => 10 * n + (c.toNat - '0'.toNat)) 0
  if !digits.isEmpty && digits.all Char.isDigit && value < 18446744073709551616 then some value
  else none

namespace Flags

def setLog? (f : Flags) : Option Flags :=
  if f.log then none else some { f with log := true }

def setJson? (f : Flags) : Option Flags :=
  if f.json || !f.jsonAllowed then none else some { f with json := true }

def setMaxDepth? (f : Flags) (value : String) : Option Flags :=
  match f.maxDepth, readCount? value with
  | none, some n => some { f with maxDepth := some n }
  | _, _ => none

def take? (f : Flags) (argument : String) : Option Flags :=
  if argument = "--log" then f.setLog?
  else if argument = "--json" then f.setJson?
  else ("--max-call-depth=".toList.isPrefixOf? argument.toList).bind fun value =>
    f.setMaxDepth? (String.ofList value)

end Flags

def isFlag (argument : String) : Bool :=
  argument != "-" && argument.toList.head? == some '-'

def readFlags : Flags → List String → Option (Flags × String × List String)
  | _, [] => none
  | f, "--max-call-depth" :: value :: rest => do readFlags (← f.setMaxDepth? value) rest
  | f, argument :: rest =>
    if isFlag argument then do readFlags (← f.take? argument) rest
    else some (f, argument, rest)

def setFile? (file : Option String) (name : String) : Option (Option String) :=
  if file.isSome || name.isEmpty then none else some (some name)

def readOperands : Flags → Option String → List String → Option (Flags × Option String)
  | f, file, [] => some (f, file)
  | f, file, "--" :: names => do return (f, ← names.foldlM setFile? file)
  | f, file, "--max-call-depth" :: value :: rest => do
    readOperands (← f.setMaxDepth? value) file rest
  | f, file, argument :: rest =>
    if isFlag argument then do readOperands (← f.take? argument) file rest
    else do readOperands f (← setFile? file argument) rest

def action? (word : String) (json : Bool) : Option Action :=
  match word with
  | "tokenize" => some (.tokenize json)
  | "parse" => some .parse
  | "evaluate" => some .evaluate
  | "run" => some .run
  | _ => none

def Command.ofArguments? (arguments : List String) : Option Command := do
  let (outer, word, rest) ← readFlags {} arguments
  let (inner, file) ← readOperands { jsonAllowed := word == "tokenize" } none rest
  let action ← action? word inner.json
  return {
    action
    file
    log := outer.log || inner.log
    maxDepth := (inner.maxDepth.or outer.maxDepth).getD defaultMaxDepth }

end Quill.Cli
