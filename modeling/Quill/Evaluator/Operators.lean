import Quill.Heap

set_option autoImplicit false

namespace Quill.Operator

def unary (operator : Token) (operand : Value) : Except Error Value :=
  match operator.kind with
  | .symbol .minus =>
    match operand with
    | .number x => .ok (.number (-x))
    | _ => .error (.runtime .operandNotNumber operator.line)
  | .symbol .bang => .ok (.boolean !operand.isTruthy)
  | _ => .error (.internal (.invalidUnary operator.lexeme))

/-- Two numbers are added; otherwise a string on either side makes it a concatenation. -/
def add (h : Heap) (line : Nat) : Value → Value → Except Error Value
  | .number a, .number b => .ok (.number (a + b))
  | .string a, right => .ok (.string (a ++ h.display right))
  | left, .string b => .ok (.string (h.display left ++ b))
  | _, _ => .error (.runtime .operandsNotAddable line)

def onNumbers (line : Nat) (f : Float → Float → Value) : Value → Value → Except Error Value
  | .number a, .number b => .ok (f a b)
  | _, _ => .error (.runtime .operandsNotNumbers line)

def binary (h : Heap) (operator : Token) (left right : Value) : Except Error Value :=
  match operator.kind with
  | .symbol .plus => add h operator.line left right
  | .symbol .minus => onNumbers operator.line (fun a b => .number (a - b)) left right
  | .symbol .star => onNumbers operator.line (fun a b => .number (a * b)) left right
  | .symbol .slash => onNumbers operator.line (fun a b => .number (a / b)) left right
  | .symbol .greater => onNumbers operator.line (fun a b => .boolean (a > b)) left right
  | .symbol .greaterEqual => onNumbers operator.line (fun a b => .boolean (a ≥ b)) left right
  | .symbol .less => onNumbers operator.line (fun a b => .boolean (a < b)) left right
  | .symbol .lessEqual => onNumbers operator.line (fun a b => .boolean (a ≤ b)) left right
  | .symbol .equalEqual => .ok (.boolean (left.equal right))
  | .symbol .bangEqual => .ok (.boolean !left.equal right)
  | _ => .error (.internal (.invalidBinary operator.lexeme))

end Quill.Operator
