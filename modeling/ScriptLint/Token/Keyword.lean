/-!
# Reserved words

The words that a script cannot use as names. `Keyword.ofWord?` finds the keyword that a word
spells.
-/

namespace ScriptLint

/-- A reserved word. -/
inductive Keyword where
  | doKw | ifKw | inKw | forKw | letKw | newKw | tryKw | varKw | caseKw | elseKw | enumKw
  | thisKw | voidKw | withKw | awaitKw | breakKw | catchKw | classKw | constKw | superKw
  | throwKw | whileKw | yieldKw | deleteKw | exportKw | importKw | publicKw | returnKw | staticKw
  | switchKw | typeofKw | defaultKw | extendsKw | finallyKw | packageKw | privateKw | continueKw
  | debuggerKw | functionKw | interfaceKw | protectedKw | implementsKw | instanceofKw
deriving DecidableEq, Repr

namespace Keyword

/-- All keywords, from the shortest to the longest. -/
def all : List Keyword :=
  [.doKw, .ifKw, .inKw, .forKw, .letKw, .newKw, .tryKw, .varKw, .caseKw, .elseKw, .enumKw,
   .thisKw, .voidKw, .withKw, .awaitKw, .breakKw, .catchKw, .classKw, .constKw, .superKw,
   .throwKw, .whileKw, .yieldKw, .deleteKw, .exportKw, .importKw, .publicKw, .returnKw,
   .staticKw, .switchKw, .typeofKw, .defaultKw, .extendsKw, .finallyKw, .packageKw, .privateKw,
   .continueKw, .debuggerKw, .functionKw, .interfaceKw, .protectedKw, .implementsKw,
   .instanceofKw]

/-- How a keyword is spelled. -/
def word : Keyword → String
  | .doKw => "do"
  | .ifKw => "if"
  | .inKw => "in"
  | .forKw => "for"
  | .letKw => "let"
  | .newKw => "new"
  | .tryKw => "try"
  | .varKw => "var"
  | .caseKw => "case"
  | .elseKw => "else"
  | .enumKw => "enum"
  | .thisKw => "this"
  | .voidKw => "void"
  | .withKw => "with"
  | .awaitKw => "await"
  | .breakKw => "break"
  | .catchKw => "catch"
  | .classKw => "class"
  | .constKw => "const"
  | .superKw => "super"
  | .throwKw => "throw"
  | .whileKw => "while"
  | .yieldKw => "yield"
  | .deleteKw => "delete"
  | .exportKw => "export"
  | .importKw => "import"
  | .publicKw => "public"
  | .returnKw => "return"
  | .staticKw => "static"
  | .switchKw => "switch"
  | .typeofKw => "typeof"
  | .defaultKw => "default"
  | .extendsKw => "extends"
  | .finallyKw => "finally"
  | .packageKw => "package"
  | .privateKw => "private"
  | .continueKw => "continue"
  | .debuggerKw => "debugger"
  | .functionKw => "function"
  | .interfaceKw => "interface"
  | .protectedKw => "protected"
  | .implementsKw => "implements"
  | .instanceofKw => "instanceof"

/-- The keyword that a word spells. -/
def ofWord? (word : String) : Option Keyword :=
  all.find? fun k => k.word == word

end Keyword

end ScriptLint
