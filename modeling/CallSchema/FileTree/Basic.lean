import CallSchema.Dotted
import CallSchema.Table

/-! # File trees

Files and directories as a value, with a current directory. Paths are followed part by part: each
part needs a directory to be looked up in, so that a path through a file leads nowhere. A path that
is too long leads nowhere either, whatever it spells. Some paths lead further than the path from the
root could, and the system then cannot find out the latter.

A file may be one that cannot be read, and a directory one that cannot be listed; what is in such a
directory can still be reached by its name. A directory that cannot be searched is one without
entries. Left out are symbolic links, files that are neither regular nor directories, names that are
no Unicode text, and changes to the files while they are read. All directories above the current one
can be searched.
-/

namespace CallSchema

/-- Why the system refuses to read, list or write. -/
inductive AccessFault where
  | notFound
  | notDirectory
  | isDirectory
  | nameTooLong
  | denied
  | invalidText
  | other (text : String)
deriving DecidableEq, Repr

def AccessFault.text : AccessFault → String
  | .notFound => "No such file or directory (os error 2)"
  | .notDirectory => "Not a directory (os error 20)"
  | .isDirectory => "Is a directory (os error 21)"
  | .nameTooLong => "File name too long (os error 36)"
  | .denied => "Permission denied (os error 13)"
  | .invalidText => "stream did not contain valid UTF-8"
  | .other text => text

/-- What is read from a file. -/
abbrev FileContent := Except AccessFault ByteArray

inductive FileNode where
  | stored (content : FileContent)
  /-- A directory that cannot be opened and listed has the refusal of the system. -/
  | directory (entries : List (String × FileNode)) (refusal : Option AccessFault := none)
deriving Inhabited

namespace FileNode

/-- A file that can be read. -/
@[match_pattern]
abbrev file (content : ByteArray) : FileNode :=
  .stored (.ok content)

def isFile : FileNode → Bool
  | .stored _ => true
  | .directory .. => false

/-- The entries of a directory; a file has none. -/
def entries : FileNode → List (String × FileNode)
  | .stored _ => []
  | .directory es _ => es

def refusal : FileNode → Option AccessFault
  | .stored _ => none
  | .directory _ refusal => refusal

/-- The node at the end of a list of names. -/
def follow? : List String → FileNode → Option FileNode
  | [], node => some node
  | name :: rest, .directory es _ =>
    match Table.find? es name with
    | some node => follow? rest node
    | none => none
  | _ :: _, .stored _ => none

/-- Puts a node at the end of a list of names, with the directories that are missing. -/
def place (leaf : FileNode) : List String → FileNode → FileNode
  | [], _ => leaf
  | name :: rest, node =>
    .directory (Table.enter node.entries name
      (place leaf rest ((Table.find? node.entries name).getD (.directory [])))) node.refusal

/-- Makes sure that there is a directory at the end of a list of names. -/
def makeDirectory : List String → FileNode → FileNode
  | [], node => .directory node.entries node.refusal
  | name :: rest, node =>
    .directory (Table.enter node.entries name
      (makeDirectory rest ((Table.find? node.entries name).getD (.directory [])))) node.refusal

end FileNode

structure FileTree where
  root : FileNode
  /-- The names that lead from the root to the current directory. -/
  here : List String

namespace FileTree

/-- The parts of a path between slashes. -/
def parts (path : String) : List String :=
  (Separated.split '/' path.toList).map String.ofList

/-- A path with a name below it. -/
def joinPath (path name : String) : String :=
  if path.isEmpty || path.toList.getLast? == some '/' then path ++ name else path ++ "/" ++ name

/-- The path of the directory that holds the file at a path. Empty parts and single dots at its end
are left out. -/
def parentPath (path : String) : String :=
  match ((parts path).dropLast.reverse.dropWhile fun p => p == "" || p == ".").reverse with
  | [] => if path.toList.head? = some '/' then "/" else "."
  | front => "/".intercalate front

/-- The path from the root along a list of names. -/
def absolutePath (names : List String) : String :=
  "/" ++ "/".intercalate names

/-- A path that is followed has fewer bytes than this. -/
def pathLimit : Nat :=
  4096

def withinLimit (path : String) : Bool :=
  decide (path.utf8ByteSize < pathLimit)

def node? (t : FileTree) (names : List String) : Option FileNode :=
  t.root.follow? names

/-- Follows the parts of a path from a directory that is given by the names leading to it. -/
def walk? (t : FileTree) : List String → List String → Option (List String)
  | names, [] => some names
  | names, part :: rest =>
    match t.node? names with
    | some (.directory es _) =>
      if part = "" ∨ part = "." then walk? t names rest
      else if part = ".." then walk? t names.dropLast rest
      else if Table.contains es part then walk? t (names ++ [part]) rest
      else none
    | _ => none

/-- Where the parts of a path start. -/
def start (t : FileTree) (path : String) : List String :=
  if path.toList.head? = some '/' then [] else t.here

/-- The names that lead from the root to where a path leads. -/
def canonical? (t : FileTree) (path : String) : Option (List String) :=
  if path ≠ "" ∧ withinLimit path then t.walk? (t.start path) (parts path) else none

/-- What a path leads to. -/
def lookup? (t : FileTree) (path : String) : Option FileNode :=
  (t.canonical? path).bind t.node?

/-- Whether the parts that follow a name ask for a directory before they name anything in it. -/
def askForDirectory (rest : List String) : Bool :=
  match rest.dropWhile fun p => p == "" || p == "." with
  | [] => !rest.isEmpty
  | part :: _ => part == ".."

/-- Whether a walk keeps to paths from the root that are within the limit. It looks at each name on
the way, with a slash behind it where a directory is asked for. -/
def nameable : List String → List String → Bool
  | _, [] => true
  | names, part :: rest =>
    if part = "" ∨ part = "." then nameable names rest
    else if part = ".." then nameable names.dropLast rest
    else
      let real := absolutePath (names ++ [part])
      withinLimit (if askForDirectory rest then real ++ "/" else real) &&
        nameable (names ++ [part]) rest

/-- Whether the system finds out the path from the root for a path that leads somewhere. -/
def isNamed (t : FileTree) (path : String) : Bool :=
  nameable (t.start path) (parts path)

/-- The parts of a path without those that lead nowhere else, except for the first. -/
def components (path : String) : List String :=
  match parts path with
  | [] => []
  | first :: rest => first :: rest.filter fun p => p != "" && p != "."

/-- Whether two paths lead to the same place. Where a path from the root cannot be found out, the
paths are compared as they are spelled. -/
def sameFile (t : FileTree) (a b : String) : Bool :=
  if t.isNamed a && t.isNamed b then t.canonical? a == t.canonical? b
  else components a == components b

def isFile (t : FileTree) (path : String) : Bool :=
  match t.lookup? path with
  | some node => node.isFile
  | none => false

def isDirectory (t : FileTree) (path : String) : Bool :=
  match t.lookup? path with
  | some node => !node.isFile
  | none => false

/-- The name before its last dot; a dot in front does not count. -/
def stem (name : String) : String :=
  match Dotted.beforeLast? name with
  | some front => if front.isEmpty then name else front
  | none => name

def hasExtension (extension name : String) : Bool :=
  name == stem name ++ "." ++ extension

/-- The order of names by code points. -/
def nameLe : List Char → List Char → Bool
  | [], _ => true
  | _ :: _, [] => false
  | a :: as, b :: bs => if a = b then nameLe as bs else decide (a.toNat < b.toNat)

/-- Named things in the order of their names. -/
def sortByName {α : Type} (xs : List (String × α)) : List (String × α) :=
  xs.mergeSort fun a b => nameLe a.1.toList b.1.toList

end FileTree

end CallSchema
