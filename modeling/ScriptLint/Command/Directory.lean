import ScriptLint.Settings

/-!
# Directories

A directory with the files below it, and what reading at a path in it gives. The path of a file is
the list of the names that lead to it.
-/

namespace ScriptLint.Command

/-- The files of a directory and of the directories in it. -/
structure Directory where
  files : List (List String × ByteArray)

/-- The text of the bytes of a file. -/
def decodeText (bytes : ByteArray) : Except ReadFault String :=
  match String.fromUTF8? bytes with
  | some text => .ok text
  | none => .error .notText

namespace Directory

/-- The bytes of the file that a path of names leads to. -/
def file? (d : Directory) (path : List String) : Option ByteArray :=
  (d.files.find? fun entry => entry.1 == path).map Prod.snd

/-- Whether a path of names leads to a directory. -/
def isDirectory (d : Directory) (path : List String) : Bool :=
  d.files.any fun entry => path.isPrefixOf entry.1 && path.length < entry.1.length

/-- What stands where the names of `path` lead from the directory at `place`. A place outside of the
directory is `none`; nothing is known there but that it is a directory. -/
def resolve (d : Directory) : (place : Option (List String)) → (path : List String) →
    Except ReadFault ByteArray
  | _, [] => .error .directory
  | place, "" :: path => resolve d place path
  | place, "." :: path => resolve d place path
  | place, ".." :: path =>
    resolve d (place.bind fun names => if names.isEmpty then none else some names.dropLast) path
  | none, _ :: _ => .error .missing
  | some names, name :: path =>
    let names := names ++ [name]
    match d.file? names with
    | some bytes => if path.isEmpty then .ok bytes else .error .notDirectory
    | none => if d.isDirectory names then resolve d (some names) path else .error .missing

/-- The names of a path. -/
def namesOf (path : String) : List String :=
  path.splitOn "/"

/-- The text at a path that starts in the directory, or at the root if a slash is its first
character. -/
def read (d : Directory) (path : String) : Except ReadFault String :=
  if path = "" then .error .missing
  else do
    let start := if path.startsWith "/" then none else some []
    let bytes ← resolve d start (namesOf path)
    decodeText bytes

end Directory

end ScriptLint.Command
