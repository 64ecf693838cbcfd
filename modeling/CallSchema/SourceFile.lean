import CallSchema.FileTree.Basic
import CallSchema.SyntaxTree.Decode
import CallSchema.Target

/-! # Source files

Each module is a document with the extension `json`. A directory is a package if it holds the
document `__init__.json`; directories within a package that are none do not belong to it. What a
directory holds counts as far as the path that leads there through the directory is within the
limit. A directory that cannot be listed has an error in the place of what it holds.
-/

namespace CallSchema

inductive LoadError where
  | fileNotFound (path : String)
  | unreadable (path : String) (fault : AccessFault)
  | invalidTree (origin : String)
  | notPackage (path : String)
deriving DecidableEq, Repr

namespace LoadError

def message : LoadError → String
  | .fileNotFound path => "file not found: " ++ path
  | .unreadable path fault => "cannot read " ++ path ++ ": " ++ fault.text
  | .invalidTree origin => "invalid syntax tree in " ++ origin
  | .notPackage path => "not a package (missing __init__ module): " ++ path

/-- Faults of the file system and faults of the input have different codes. -/
def exitCode : LoadError → Nat
  | .fileNotFound _ => 3
  | .unreadable .. => 3
  | .invalidTree _ => 2
  | .notPackage _ => 2

end LoadError

/-- The syntax tree of a document in memory. -/
def SyntaxTree.ofText (text : String) : Except LoadError SyntaxTree :=
  match SyntaxTree.parse? text with
  | some tree => .ok tree
  | none => .error (.invalidTree "<string>")

/-- The syntax tree in the content of a file. -/
def SyntaxTree.ofBytes (path : String) (content : ByteArray) : Except LoadError SyntaxTree :=
  match String.fromUTF8? content with
  | none => .error (.unreadable path .invalidText)
  | some text =>
    match SyntaxTree.parse? text with
    | some tree => .ok tree
    | none => .error (.invalidTree path)

/-- The syntax tree of a file. -/
def SyntaxTree.ofFile (path : String) : FileContent → Except LoadError SyntaxTree
  | .ok content => SyntaxTree.ofBytes path content
  | .error fault => .error (.unreadable path fault)

/-- The name of the document of a package itself. -/
def packageDocument : String :=
  "__init__.json"

def isPackageStem (name : String) : Bool :=
  FileTree.stem name == "__init__"

def FileNode.isPackage (node : FileNode) : Bool :=
  match Table.find? node.entries packageDocument with
  | some entry => entry.isFile
  | none => false

/-- Whether a directory is a package for those who reach it by the path `dir`. -/
def FileNode.isPackageAt (dir : String) (node : FileNode) : Bool :=
  FileTree.withinLimit (FileTree.joinPath dir packageDocument) && node.isPackage

/-- A document that is to be loaded as a module. -/
structure SourceFile where
  path : String
  module : ModulePath
  isPackage : Bool
  content : FileContent

namespace SourceFile

/-- The document `name` in a directory that is the given package. -/
def ofName (dir : String) (package : ModulePath) (name : String) (content : FileContent) :
    SourceFile :=
  if isPackageStem name then ⟨FileTree.joinPath dir name, package, true, content⟩
  else ⟨FileTree.joinPath dir name, package.join (FileTree.stem name), false, content⟩

def unit (f : SourceFile) (tree : SyntaxTree) : SourceUnit :=
  ⟨f.module, f.isPackage, tree, false⟩

def load (f : SourceFile) : Except LoadError SourceUnit :=
  (SyntaxTree.ofFile f.path f.content).map f.unit

/-- The module, if it can be loaded. -/
def load? (f : SourceFile) : Option SourceUnit :=
  match f.load with
  | .ok u => some u
  | .error _ => none

end SourceFile

/-- The documents among the entries of the directory at the path `dir`. -/
def documents (dir : String) (entries : List (String × FileNode)) : List (String × FileContent) :=
  entries.filterMap fun
    | (name, .stored content) =>
      if FileTree.hasExtension "json" name && FileTree.withinLimit (FileTree.joinPath dir name) then
        some (name, content)
      else none
    | (_, .directory ..) => none

/-- The documents of the package at `dir` as files of it. -/
def sourceFiles (dir : String) (package : ModulePath) (docs : List (String × FileContent)) :
    List (Except LoadError SourceFile) :=
  docs.map fun (name, content) => .ok (.ofName dir package name content)

mutual

/-- The documents of a package directory by name, then those of its sub-packages. The directory is
reached by the path `dir`, and `real` is its path from the root. Documents that are `ahead` come
first, and their names are known before the directory is listed. -/
def FileNode.sources (ahead : String → Bool) (dir real : String) (package : ModulePath) :
    FileNode → List (Except LoadError SourceFile)
  | .stored _ => []
  | .directory entries refusal =>
    let docs := documents dir entries
    sourceFiles dir package (docs.filter fun d => ahead d.1) ++
      match refusal with
      | some fault => [.error (.unreadable dir fault)]
      | none =>
        sourceFiles dir package (FileTree.sortByName (docs.filter fun d => !ahead d.1)) ++
          (FileTree.sortByName (FileNode.subSources ahead dir real package entries)).flatMap
            Prod.snd

/-- The documents of each sub-package, whose own path from the root has to be found out first. -/
def FileNode.subSources (ahead : String → Bool) (dir real : String) (package : ModulePath) :
    List (String × FileNode) → List (String × List (Except LoadError SourceFile))
  | [] => []
  | (name, node) :: rest =>
    let subDir := FileTree.joinPath dir name
    let subReal := FileTree.joinPath real name
    if node.isPackageAt subDir then
      (name,
        if FileTree.withinLimit subReal then
          FileNode.sources ahead subDir subReal (package.join name) node
        else [.error (.unreadable subDir .nameTooLong)])
        :: FileNode.subSources ahead dir real package rest
    else FileNode.subSources ahead dir real package rest

end

end CallSchema
