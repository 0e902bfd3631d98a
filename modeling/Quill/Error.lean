import Quill.Text.Utf8
import Quill.Token

set_option autoImplicit false

namespace Quill

inductive LexicalFault where
  | unexpected (character : String)
  | unterminatedString
  deriving DecidableEq

def LexicalFault.message : LexicalFault → String
  | .unexpected character => s!"Unexpected character: {character}"
  | .unterminatedString => "Unterminated string."

inductive Routine where
  | function
  | method
  | anonymous
  deriving DecidableEq

def Routine.noun : Routine → String
  | .function => "function"
  | .method => "method"
  | .anonymous => "anonymous function"

inductive NameRole where
  | className
  | superclass
  | routine (r : Routine)
  | parameter
  | variable
  | property
  | superMethod
  deriving DecidableEq

def NameRole.phrase : NameRole → String
  | .className => "class name"
  | .superclass => "superclass name"
  | .routine r => s!"{r.noun} name"
  | .parameter => "parameter name"
  | .variable => "variable name"
  | .property => "property name after '.'"
  | .superMethod => "superclass method name"

inductive Place where
  | beforeClassBody
  | afterClassBody
  | afterName (r : Routine)
  | afterParameters
  | beforeBody (r : Routine)
  | afterVariable
  | afterKeyword (s : Symbol)
  | afterLoopCondition
  | afterForClauses
  | afterValue
  | afterExpression
  | afterCondition
  | afterReturnValue
  | afterBlock
  | afterArguments
  deriving DecidableEq

def Place.phrase : Place → String
  | .beforeClassBody => "before class body"
  | .afterClassBody => "after class body"
  | .afterName r => s!"after {r.noun} name"
  | .afterParameters => "after parameters"
  | .beforeBody r => s!"before {r.noun} body"
  | .afterVariable => "after variable declaration"
  | .afterKeyword s => s!"after '{s.spelling}'"
  | .afterLoopCondition => "after loop condition"
  | .afterForClauses => "after for clauses"
  | .afterValue => "after value"
  | .afterExpression => "after expression"
  | .afterCondition => "after condition"
  | .afterReturnValue => "after return value"
  | .afterBlock => "after block"
  | .afterArguments => "after arguments"

inductive SyntaxFault where
  | missingName (role : NameRole)
  | missing (s : Symbol) (place : Place)
  | expectedExpression
  | expectedEnd
  | invalidTarget
  | tooManyArguments
  | tooManyParameters
  deriving DecidableEq

def SyntaxFault.message : SyntaxFault → String
  | .missingName role => s!"Expected {role.phrase}"
  | .missing s place => s!"Expected '{s.spelling}' {place.phrase}"
  | .expectedExpression => "Expected expression"
  | .expectedEnd => "Expected end of expression"
  | .invalidTarget => "Invalid assignment target"
  | .tooManyArguments => "Can't have more than 255 arguments"
  | .tooManyParameters => "Can't have more than 255 parameters"

inductive BindingFault where
  | redeclared
  | ownInitializer
  | breakOutsideLoop
  | returnAtTopLevel
  | returnFromAnonymous
  | returnValueFromInitializer
  | thisOutsideClass
  | superOutsideClass
  | superWithoutSuperclass
  | inheritsItself
  deriving DecidableEq

def BindingFault.message : BindingFault → String
  | .redeclared => "Already a variable with this name in this scope."
  | .ownInitializer => "Can't read local variable in its own initializer."
  | .breakOutsideLoop => "Can't use 'break' outside of a loop."
  | .returnAtTopLevel => "Can't return from top-level code."
  | .returnFromAnonymous => "Can't return from an anonymous function."
  | .returnValueFromInitializer => "Can't return a value from an initializer."
  | .thisOutsideClass => "Can't use 'this' outside of a class."
  | .superOutsideClass => "Can't use 'super' outside of a class."
  | .superWithoutSuperclass => "Can't use 'super' in a class with no superclass."
  | .inheritsItself => "A class can't inherit from itself."

inductive RuntimeFault where
  | undefinedVariable (name : String)
  | redefined (name : String)
  | undefinedProperty (name : String)
  | operandNotNumber
  | operandsNotNumbers
  | operandsNotAddable
  | notCallable
  | wrongArity (expected actual : Nat)
  | stackOverflow
  | propertyOfNonInstance
  | fieldOfNonInstance
  | superclassNotClass
  | native (message : String)
  deriving DecidableEq

def RuntimeFault.message : RuntimeFault → String
  | .undefinedVariable name => s!"Undefined variable '{name}'."
  | .redefined name => s!"Redefining existing variable '{name}' is not allowed."
  | .undefinedProperty name => s!"Undefined property '{name}'."
  | .operandNotNumber => "Operand must be a number."
  | .operandsNotNumbers => "Operands must be numbers."
  | .operandsNotAddable => "Operands must be two numbers or at least one string."
  | .notCallable => "Can only call functions and classes."
  | .wrongArity expected actual => s!"Expected {expected} arguments but got {actual}."
  | .stackOverflow => "Stack overflow."
  | .propertyOfNonInstance => "Only instances have properties."
  | .fieldOfNonInstance => "Only instances have fields."
  | .superclassNotClass => "Superclass must be a class."
  | .native message => message

inductive InternalFault where
  | noScope (distance : Nat) (name : String) (line : Nat)
  | notBound (name : String) (distance : Nat) (line : Nat)
  | breakEscapedBody (name : String)
  | returnEscaped
  | breakEscaped
  | namelessFunction
  | invalidUnary (operator : String)
  | invalidBinary (operator : String)
  | superUnresolved
  | superAtDistanceZero
  | superNotClass
  | thisNotInstance
  | dangling
  | native (message : String)
  deriving DecidableEq

def InternalFault.message : InternalFault → String
  | .noScope distance name line => s!"no scope {distance} level(s) out for '{name}' [line {line}]"
  | .notBound name distance line =>
    s!"'{name}' not bound at resolved distance {distance} [line {line}]"
  | .breakEscapedBody name => s!"'break' escaped the body of '{name}'"
  | .returnEscaped => "'return' escaped to top level"
  | .breakEscaped => "'break' escaped to top level"
  | .namelessFunction => "function statement without a name"
  | .invalidUnary operator => s!"invalid unary operator '{operator}'"
  | .invalidBinary operator => s!"invalid binary operator '{operator}'"
  | .superUnresolved => "'super' was not resolved"
  | .superAtDistanceZero => "'super' resolved at distance 0"
  | .superNotClass => "'super' is not bound to a class"
  | .thisNotInstance => "'this' is not bound to an instance"
  | .dangling => "reference to an object that was never created"
  | .native message => message

inductive IoFault where
  | sinkFull
  | flushFailed
  | host (message : String)
  deriving DecidableEq

def IoFault.message : IoFault → String
  | .sinkFull => "sink full"
  | .flushFailed => "flush failed"
  | .host message => message

inductive Error where
  | lexical (fault : LexicalFault) (line : Nat)
  | syntactic (fault : SyntaxFault) (token : Token)
  | binding (fault : BindingFault) (token : Token)
  | runtime (fault : RuntimeFault) (line : Nat)
  | internal (fault : InternalFault)
  | io (fault : IoFault)
  | encoding (fault : Utf8.Fault)

namespace Error

def location (t : Token) : String :=
  if t.is .eof then " at end" else s!" at '{t.lexeme}'"

def message : Error → String
  | lexical fault line => s!"[line {line}] Error: {fault.message}"
  | syntactic fault token => s!"[line {token.line}] Error{location token}: {fault.message}"
  | binding fault token => s!"[line {token.line}] Error{location token}: {fault.message}"
  | runtime fault line => s!"{fault.message}\n[line {line}]"
  | internal fault => s!"Internal error: {fault.message}"
  | io fault => fault.message
  | encoding fault => fault.message

def line? : Error → Option Nat
  | lexical _ line | runtime _ line => some line
  | syntactic _ token | binding _ token => some token.line
  | internal _ | io _ | encoding _ => none

def isStatic : Error → Bool
  | lexical .. | syntactic .. | binding .. => true
  | _ => false

def exitCode : Error → Nat
  | lexical .. | syntactic .. | binding .. => 65
  | runtime .. | internal _ => 70
  | io _ | encoding _ => 74

end Error

end Quill
