import CallSchema.FileTree.Basic

/-! # Writing files

A file is written where its directory exists. A path that ends in a slash can only mean a
directory. Names are bounded in bytes, each part of a path on its own and the path as a whole.
-/

namespace CallSchema.FileTree

/-- A name has at most this many bytes. -/
def nameLimit : Nat :=
  255

/-- Follows a path to a directory. -/
def enter (t : FileTree) : List String → List String → Except AccessFault (List String)
  | names, parts =>
    match t.node? names, parts with
    | some (.directory ..), [] => .ok names
    | some (.directory ..), part :: rest =>
      if part = "" ∨ part = "." then enter t names rest
      else if part = ".." then enter t names.dropLast rest
      else if nameLimit < part.utf8ByteSize then .error .nameTooLong
      else enter t (names ++ [part]) rest
    | some (.stored _), _ => .error .notDirectory
    | none, _ => .error .notFound

/-- The parts of a path without the empty ones at its end. -/
def trimmedParts (path : String) : List String :=
  ((parts path).reverse.dropWhile fun p => p == "").reverse

/-- Writes a file in the directory at the end of a list of names. -/
def writeIn (t : FileTree) (names : List String) (name : String) (content : ByteArray) :
    Except AccessFault FileTree :=
  if nameLimit < name.utf8ByteSize then .error .nameTooLong
  else
    match t.node? (names ++ [name]) with
    | some (.directory ..) => .error .isDirectory
    | _ => .ok { t with root := .place (.file content) (names ++ [name]) t.root }

def write (t : FileTree) (path : String) (content : ByteArray) : Except AccessFault FileTree :=
  let trimmed := trimmedParts path
  if path = "" then .error .notFound
  else if !withinLimit path then .error .nameTooLong
  else
    match trimmed.getLast? with
    | none => .error .isDirectory
    | some name => do
      let names ← t.enter (t.start path) trimmed.dropLast
      if name = "." ∨ name = ".." ∨ trimmed ≠ parts path then .error .isDirectory
      else t.writeIn names name content

end CallSchema.FileTree
