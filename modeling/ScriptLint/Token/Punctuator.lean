/-!
# Punctuators

The operators and brackets of a script. Where several punctuators start the same way the longest
one is taken, which `Punctuator.longest?` finds by looking at four characters.
-/

namespace ScriptLint

/-- An operator or a bracket. -/
inductive Punctuator where
  | assignUnsignedShiftRight | assignShiftRight | assignShiftLeft | assignBitwiseOr
  | assignBitwiseXor | assignBitwiseAnd | assignPlus | assignMinus | assignMul | assignDiv
  | assignMod | semicolon | comma | hook | colon | or | and | bitwiseOr | bitwiseXor | bitwiseAnd
  | strictEq | eq | assign | strictNe | ne | shiftLeft | le | lt | unsignedShiftRight
  | shiftRight | ge | gt | increment | decrement | plus | minus | mul | div | mod | not
  | bitwiseNot | dot | leftBracket | rightBracket | leftCurly | rightCurly | leftParen
  | rightParen
deriving DecidableEq, Repr

namespace Punctuator

/-- All punctuators. -/
def all : List Punctuator :=
  [.assignUnsignedShiftRight, .assignShiftRight, .assignShiftLeft, .assignBitwiseOr,
   .assignBitwiseXor, .assignBitwiseAnd, .assignPlus, .assignMinus, .assignMul, .assignDiv,
   .assignMod, .semicolon, .comma, .hook, .colon, .or, .and, .bitwiseOr, .bitwiseXor,
   .bitwiseAnd, .strictEq, .eq, .assign, .strictNe, .ne, .shiftLeft, .le, .lt,
   .unsignedShiftRight, .shiftRight, .ge, .gt, .increment, .decrement, .plus, .minus, .mul, .div,
   .mod, .not, .bitwiseNot, .dot, .leftBracket, .rightBracket, .leftCurly, .rightCurly,
   .leftParen, .rightParen]

/-- How a punctuator is spelled. -/
def spelling : Punctuator → String
  | .assignUnsignedShiftRight => ">>>="
  | .assignShiftRight => ">>="
  | .assignShiftLeft => "<<="
  | .assignBitwiseOr => "|="
  | .assignBitwiseXor => "^="
  | .assignBitwiseAnd => "&="
  | .assignPlus => "+="
  | .assignMinus => "-="
  | .assignMul => "*="
  | .assignDiv => "/="
  | .assignMod => "%="
  | .semicolon => ";"
  | .comma => ","
  | .hook => "?"
  | .colon => ":"
  | .or => "||"
  | .and => "&&"
  | .bitwiseOr => "|"
  | .bitwiseXor => "^"
  | .bitwiseAnd => "&"
  | .strictEq => "==="
  | .eq => "=="
  | .assign => "="
  | .strictNe => "!=="
  | .ne => "!="
  | .shiftLeft => "<<"
  | .le => "<="
  | .lt => "<"
  | .unsignedShiftRight => ">>>"
  | .shiftRight => ">>"
  | .ge => ">="
  | .gt => ">"
  | .increment => "++"
  | .decrement => "--"
  | .plus => "+"
  | .minus => "-"
  | .mul => "*"
  | .div => "/"
  | .mod => "%"
  | .not => "!"
  | .bitwiseNot => "~"
  | .dot => "."
  | .leftBracket => "["
  | .rightBracket => "]"
  | .leftCurly => "\x7b"
  | .rightCurly => "\x7d"
  | .leftParen => "("
  | .rightParen => ")"

/-- What a punctuator is called in token dumps. -/
def label : Punctuator → String
  | .assignUnsignedShiftRight => "AssignUnsignedShiftRight"
  | .assignShiftRight => "AssignShiftRight"
  | .assignShiftLeft => "AssignShiftLeft"
  | .assignBitwiseOr => "AssignBitwiseOr"
  | .assignBitwiseXor => "AssignBitwiseXor"
  | .assignBitwiseAnd => "AssignBitwiseAnd"
  | .assignPlus => "AssignPlus"
  | .assignMinus => "AssignMinus"
  | .assignMul => "AssignMul"
  | .assignDiv => "AssignDiv"
  | .assignMod => "AssignMod"
  | .semicolon => "Semicolon"
  | .comma => "Comma"
  | .hook => "Hook"
  | .colon => "Colon"
  | .or => "Or"
  | .and => "And"
  | .bitwiseOr => "BitwiseOr"
  | .bitwiseXor => "BitwiseXor"
  | .bitwiseAnd => "BitwiseAnd"
  | .strictEq => "StrictEq"
  | .eq => "Eq"
  | .assign => "Assign"
  | .strictNe => "StrictNe"
  | .ne => "Ne"
  | .shiftLeft => "ShiftLeft"
  | .le => "Le"
  | .lt => "Lt"
  | .unsignedShiftRight => "UnsignedShiftRight"
  | .shiftRight => "ShiftRight"
  | .ge => "Ge"
  | .gt => "Gt"
  | .increment => "Increment"
  | .decrement => "Decrement"
  | .plus => "Plus"
  | .minus => "Minus"
  | .mul => "Mul"
  | .div => "Div"
  | .mod => "Mod"
  | .not => "Not"
  | .bitwiseNot => "BitwiseNot"
  | .dot => "Dot"
  | .leftBracket => "LeftBracket"
  | .rightBracket => "RightBracket"
  | .leftCurly => "LeftCurly"
  | .rightCurly => "RightCurly"
  | .leftParen => "LeftParen"
  | .rightParen => "RightParen"

/-- The punctuator with the given spelling. -/
def ofSpelling? (spelling : String) : Option Punctuator :=
  all.find? fun p => p.spelling == spelling

/-- The punctuator that the first `count` characters of `text` spell. -/
def spelledBy? (text : List Char) (count : Nat) : Option Punctuator :=
  if count ≤ text.length then ofSpelling? (String.ofList (text.take count)) else none

/-- The longest punctuator that `text` starts with, and its length. No spelling has more than
four characters. -/
def longest? (text : List Char) : Option (Punctuator × Nat) :=
  let window := text.take 4
  [4, 3, 2, 1].findSome? fun count => (spelledBy? window count).map fun p => (p, count)

end Punctuator

end ScriptLint
