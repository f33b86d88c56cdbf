import ScriptLint.Number.Layout

/-!
# JSON values

A JSON value and its text. The compact text has no white space. The indented text puts every item
and every field on a line of its own, two blanks further in for each level.
-/

namespace ScriptLint

/-- A JSON value. The fields of an object keep their order. -/
inductive Json where
  | null
  | bool (value : Bool)
  | integer (value : Nat)
  | real (value : Binary64)
  | string (value : String)
  | array (items : List Json)
  | object (fields : List (String × Json))
deriving Repr

/-- How JSON text is laid out. -/
inductive JsonLayout where
  | compact
  | indented
deriving DecidableEq, Repr

namespace JsonLayout

/-- What stands before an item or a closing bracket at the given level. -/
def newline (layout : JsonLayout) (level : Nat) : List Char :=
  match layout with
  | .compact => []
  | .indented => '\n' :: List.replicate (2 * level) ' '

/-- What stands between a key and its value. -/
def colon (layout : JsonLayout) : List Char :=
  match layout with
  | .compact => [':']
  | .indented => [':', ' ']

end JsonLayout

namespace Json

/-- The digit of a number below sixteen. -/
def hexDigit (n : Nat) : Char :=
  if n < 10 then Char.ofNat (n + '0'.toNat) else Char.ofNat (n - 10 + 'a'.toNat)

/-- A character as it stands in a string. Quotes, backslashes and control characters are written as
escapes. -/
def escape (c : Char) : List Char :=
  if c = '"' then ['\\', '"']
  else if c = '\\' then ['\\', '\\']
  else if c = '\x08' then ['\\', 'b']
  else if c = '\x0c' then ['\\', 'f']
  else if c = '\n' then ['\\', 'n']
  else if c = '\r' then ['\\', 'r']
  else if c = '\t' then ['\\', 't']
  else if c.toNat < 0x20 then
    ['\\', 'u', '0', '0', hexDigit (c.toNat / 16), hexDigit (c.toNat % 16)]
  else [c]

/-- A string in quotes. -/
def quote (s : String) : List Char :=
  '"' :: (s.toList.flatMap escape ++ ['"'])

/-- The text of a number; a number that is not finite has none and is written as `null`. -/
def realChars (x : Binary64) : List Char :=
  if x.isFinite then x.jsonChars else ['n', 'u', 'l', 'l']

mutual
/-- The text of a value at the given level. -/
def write (layout : JsonLayout) (level : Nat) : Json → List Char
  | .null => ['n', 'u', 'l', 'l']
  | .bool true => ['t', 'r', 'u', 'e']
  | .bool false => ['f', 'a', 'l', 's', 'e']
  | .integer n => Nat.toDigits 10 n
  | .real x => realChars x
  | .string s => quote s
  | .array [] => ['[', ']']
  | .array (item :: items) =>
    '[' :: (layout.newline (level + 1) ++ write layout (level + 1) item ++
      (writeItems layout (level + 1) items ++ (layout.newline level ++ [']'])))
  | .object [] => ['{', '}']
  | .object ((key, value) :: fields) =>
    '{' :: (layout.newline (level + 1) ++ quote key ++ layout.colon ++
      write layout (level + 1) value ++
      (writeFields layout (level + 1) fields ++ (layout.newline level ++ ['}'])))
/-- The text of further items of an array. -/
def writeItems (layout : JsonLayout) (level : Nat) : List Json → List Char
  | [] => []
  | item :: items =>
    ',' :: (layout.newline level ++ write layout level item ++ writeItems layout level items)
/-- The text of further fields of an object. -/
def writeFields (layout : JsonLayout) (level : Nat) : List (String × Json) → List Char
  | [] => []
  | (key, value) :: fields =>
    ',' :: (layout.newline level ++ quote key ++ layout.colon ++ write layout level value ++
      writeFields layout level fields)
end

/-- The text of a value. -/
def render (layout : JsonLayout) (value : Json) : String :=
  String.ofList (write layout 0 value)

end Json

end ScriptLint
