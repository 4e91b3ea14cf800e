import StepLinker.Failure

/-!
# File trees

A directory held in memory: the files in it and below it, by path. Paths are read the way a file
system reads them, step by step, so that a path through a file or out of the directory leads
nowhere.
-/

namespace StepLinker

/-- A way to get the text of a file. -/
abbrev FileReader := String → Except ReadFault String

def decodeUtf8 (bytes : ByteArray) : Except ReadFault String :=
  match String.fromUTF8? bytes with
  | some text => .ok text
  | none => .error .notUtf8

structure FileTree where
  /-- The files by the names on their path. -/
  files : List (List String × ByteArray)

namespace FileTree

def names (path : String) : List String :=
  path.splitOn "/"

/-- Whether a file lies somewhere below the path. -/
def isDirectory (t : FileTree) (place : List String) : Bool :=
  place.isEmpty || t.files.any fun (p, _) => place.isPrefixOf p && place.length < p.length

def follow (t : FileTree) (place : List String) : List String → Except ReadFault (List String)
  | [] => .ok place
  | name :: rest =>
    if t.isDirectory place then
      if name = "" || name = "." then t.follow place rest
      else if name = ".." then
        if place.isEmpty then .error .notFound else t.follow place.dropLast rest
      else t.follow (place ++ [name]) rest
    else if t.files.any (·.1 = place) then .error (.other "Not a directory (os error 20)")
    else .error .notFound

/-- The text of the file at a path relative to the directory. -/
def read (t : FileTree) : FileReader := fun path => do
  if path.isEmpty || path.front = '/' then .error .notFound
  else
    let place ← t.follow [] (names path)
    if t.isDirectory place then .error .isDirectory
    else
      match t.files.lookup place with
      | some bytes => decodeUtf8 bytes
      | none => .error .notFound

end FileTree

end StepLinker
