import CallSchema.SourceFile

/-! # Discovery

The target that a path means. The documents of a package are loaded in the order in which they are
found, up to the first error. A single module gets the modules around it as context: those that
cannot be loaded are left out, but all their directories have to be listed.
-/

namespace CallSchema.FileTree

/-- The name of the directory at the end of a list of names. -/
def lastName (names : List String) : String :=
  names.getLast?.getD ""

/-- Loads one document. -/
def loadModule (t : FileTree) (path : String) : Except LoadError SyntaxTree :=
  match t.lookup? path with
  | none => .error (.fileNotFound path)
  | some (.directory _ refusal) => .error (.unreadable path (refusal.getD .isDirectory))
  | some (.stored content) => SyntaxTree.ofFile path content

/-- Names are taken from the path from the root, which has to be found out. -/
def checkNamed (t : FileTree) (path : String) : Except LoadError Unit :=
  if t.isNamed path then .ok () else .error (.unreadable path .nameTooLong)

/-- Loads all modules of a package, which is named after its directory. The document of a package is
the first one to be loaded in its directory. -/
def loadPackage (t : FileTree) (path : String) : Except LoadError ScanTarget :=
  match t.canonical? path with
  | none => .error (.fileNotFound path)
  | some names =>
    match t.node? names with
    | none => .error (.fileNotFound path)
    | some node =>
      if node.isPackageAt path then do
        t.checkNamed path
        let root : ModulePath := ⟨lastName names⟩
        let files := node.sources isPackageStem path (absolutePath names) root
        let units ← files.mapM fun file => file >>= SourceFile.load
        .ok (.ofPackage root units)
      else .error (.notPackage path)

/-- Whether the names lead to a package that is reached by the path `dir`. -/
def isPackageAt (t : FileTree) (dir : String) (names : List String) : Bool :=
  match t.node? names with
  | some node => node.isPackageAt dir
  | none => false

/-- Climbs from a package to the top-most package around it. The names are those that lead to the
directory, last one first; the answer also has the names below it. -/
def topPackage (t : FileTree) : List String → List String → List String × List String
  | [], below => ([], below)
  | name :: above, below =>
    if t.isPackageAt (absolutePath above.reverse) above.reverse then
      topPackage t above (name :: below)
    else ((name :: above).reverse, below)

/-- The modules around a document in a package: all of the top-most package that can be loaded. -/
def packageContext (t : FileTree) (top : List String) : Except LoadError (List SourceUnit) :=
  match t.node? top with
  | some node => do
    let real := absolutePath top
    let files ← (node.sources (fun _ => false) real real ⟨lastName top⟩).mapM id
    .ok (files.filterMap SourceFile.load?)
  | none => .ok []

/-- The modules around the document at a path outside of packages: the other documents beside it in
the directory that is reached by the path `dir`. -/
def siblingContext (t : FileTree) (dir : String) (names : List String) (path : String) :
    Except LoadError (List SourceUnit) :=
  match t.node? names with
  | some (.directory _ (some fault)) => .error (.unreadable dir fault)
  | some (.directory entries none) =>
    let siblings := (sortByName (documents dir entries)).filter fun d =>
      !t.sameFile (joinPath dir d.1) path
    .ok (siblings.filterMap fun d => (SourceFile.ofName dir .root d.1 d.2).load?)
  | _ => .ok []

/-- The single-module target of the document at a path, to which the names lead. -/
def moduleTarget (t : FileTree) (path : String) (names : List String) (tree : SyntaxTree) :
    Except LoadError ScanTarget :=
  let dir := parentPath path
  let above := names.dropLast
  let name := lastName names
  if t.isPackageAt dir above then do
    t.checkNamed dir
    let (top, below) := t.topPackage above.reverse []
    t.checkNamed (absolutePath top)
    let package := below.foldl ModulePath.join ⟨lastName top⟩
    let unit := (SourceFile.ofName dir package name (.ok .empty)).unit tree
    let context ← t.packageContext top
    .ok (.ofModule unit (context.filter fun u => u.path ≠ unit.path))
  else do
    let unit := (SourceFile.ofName dir .root name (.ok .empty)).unit tree
    let context ← t.siblingContext dir above path
    .ok (.ofModule unit context)

/-- The target that a path means: a package, or a module with the modules around it as context.
Modules of the context that cannot be loaded are left out. -/
def discover (t : FileTree) (path : String) : Except LoadError ScanTarget :=
  if t.isDirectory path then t.loadPackage path
  else do
    let tree ← t.loadModule path
    t.moduleTarget path ((t.canonical? path).getD []) tree

end CallSchema.FileTree
