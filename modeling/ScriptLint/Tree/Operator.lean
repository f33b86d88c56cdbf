import ScriptLint.Token.Basic

/-!
# Operators

The operators of expressions. Each family knows which kinds of tokens stand for its members and
how they are spelled, and the binary operators know how tightly they bind.
-/

namespace ScriptLint

/-- An operator between two operands. -/
inductive BinaryOperator where
  | or | and | bitwiseOr | bitwiseXor | bitwiseAnd | equal | notEqual | strictEqual
  | strictNotEqual | less | greater | lessEqual | greaterEqual | instanceOf | isIn | shiftLeft
  | shiftRight | unsignedShiftRight | add | subtract | multiply | divide | modulo
deriving DecidableEq, Repr

namespace BinaryOperator

/-- How tightly an operator binds; the loosest has one and the tightest ten. -/
def precedence : BinaryOperator → Nat
  | .or => 1
  | .and => 2
  | .bitwiseOr => 3
  | .bitwiseXor => 4
  | .bitwiseAnd => 5
  | .equal | .notEqual | .strictEqual | .strictNotEqual => 6
  | .less | .greater | .lessEqual | .greaterEqual | .instanceOf | .isIn => 7
  | .shiftLeft | .shiftRight | .unsignedShiftRight => 8
  | .add | .subtract => 9
  | .multiply | .divide | .modulo => 10

/-- The operator that a token stands for. -/
def ofKind? : TokenKind → Option BinaryOperator
  | .punctuator .or => some .or
  | .punctuator .and => some .and
  | .punctuator .bitwiseOr => some .bitwiseOr
  | .punctuator .bitwiseXor => some .bitwiseXor
  | .punctuator .bitwiseAnd => some .bitwiseAnd
  | .punctuator .eq => some .equal
  | .punctuator .ne => some .notEqual
  | .punctuator .strictEq => some .strictEqual
  | .punctuator .strictNe => some .strictNotEqual
  | .punctuator .lt => some .less
  | .punctuator .gt => some .greater
  | .punctuator .le => some .lessEqual
  | .punctuator .ge => some .greaterEqual
  | .keyword .instanceofKw => some .instanceOf
  | .keyword .inKw => some .isIn
  | .punctuator .shiftLeft => some .shiftLeft
  | .punctuator .shiftRight => some .shiftRight
  | .punctuator .unsignedShiftRight => some .unsignedShiftRight
  | .punctuator .plus => some .add
  | .punctuator .minus => some .subtract
  | .punctuator .mul => some .multiply
  | .punctuator .div => some .divide
  | .punctuator .mod => some .modulo
  | _ => none

/-- How an operator is spelled. -/
def spelling : BinaryOperator → String
  | .or => "||"
  | .and => "&&"
  | .bitwiseOr => "|"
  | .bitwiseXor => "^"
  | .bitwiseAnd => "&"
  | .equal => "=="
  | .notEqual => "!="
  | .strictEqual => "==="
  | .strictNotEqual => "!=="
  | .less => "<"
  | .greater => ">"
  | .lessEqual => "<="
  | .greaterEqual => ">="
  | .instanceOf => "instanceof"
  | .isIn => "in"
  | .shiftLeft => "<<"
  | .shiftRight => ">>"
  | .unsignedShiftRight => ">>>"
  | .add => "+"
  | .subtract => "-"
  | .multiply => "*"
  | .divide => "/"
  | .modulo => "%"

end BinaryOperator

/-- An operator that stores into its left operand, on its own or after combining the two. -/
inductive AssignOperator where
  | assign | add | subtract | multiply | divide | modulo | shiftLeft | shiftRight
  | unsignedShiftRight | bitwiseOr | bitwiseXor | bitwiseAnd
deriving DecidableEq, Repr

namespace AssignOperator

/-- The operator that a token stands for. -/
def ofKind? : TokenKind → Option AssignOperator
  | .punctuator .assign => some .assign
  | .punctuator .assignPlus => some .add
  | .punctuator .assignMinus => some .subtract
  | .punctuator .assignMul => some .multiply
  | .punctuator .assignDiv => some .divide
  | .punctuator .assignMod => some .modulo
  | .punctuator .assignShiftLeft => some .shiftLeft
  | .punctuator .assignShiftRight => some .shiftRight
  | .punctuator .assignUnsignedShiftRight => some .unsignedShiftRight
  | .punctuator .assignBitwiseOr => some .bitwiseOr
  | .punctuator .assignBitwiseXor => some .bitwiseXor
  | .punctuator .assignBitwiseAnd => some .bitwiseAnd
  | _ => none

/-- How an operator is spelled. -/
def spelling : AssignOperator → String
  | .assign => "="
  | .add => "+="
  | .subtract => "-="
  | .multiply => "*="
  | .divide => "/="
  | .modulo => "%="
  | .shiftLeft => "<<="
  | .shiftRight => ">>="
  | .unsignedShiftRight => ">>>="
  | .bitwiseOr => "|="
  | .bitwiseXor => "^="
  | .bitwiseAnd => "&="

end AssignOperator

/-- An operator before its only operand that leaves the operand alone. -/
inductive UnaryOperator where
  | plus | minus | not | bitwiseNot | typeOf | void | delete
deriving DecidableEq, Repr

namespace UnaryOperator

/-- The operator that a token stands for. -/
def ofKind? : TokenKind → Option UnaryOperator
  | .punctuator .plus => some .plus
  | .punctuator .minus => some .minus
  | .punctuator .not => some .not
  | .punctuator .bitwiseNot => some .bitwiseNot
  | .keyword .typeofKw => some .typeOf
  | .keyword .voidKw => some .void
  | .keyword .deleteKw => some .delete
  | _ => none

/-- How an operator is spelled. -/
def spelling : UnaryOperator → String
  | .plus => "+"
  | .minus => "-"
  | .not => "!"
  | .bitwiseNot => "~"
  | .typeOf => "typeof"
  | .void => "void"
  | .delete => "delete"

end UnaryOperator

/-- An operator that changes its operand by one. -/
inductive UpdateOperator where
  | increment | decrement
deriving DecidableEq, Repr

namespace UpdateOperator

/-- The operator that a token stands for. -/
def ofKind? : TokenKind → Option UpdateOperator
  | .punctuator .increment => some .increment
  | .punctuator .decrement => some .decrement
  | _ => none

/-- How an operator is spelled. -/
def spelling : UpdateOperator → String
  | .increment => "++"
  | .decrement => "--"

end UpdateOperator

end ScriptLint
