import CallSchema.Command.Run

/-! # The program

Reads from disk the part of the file tree that a command can look at, runs the command on it, and
prints and writes what it reports.
-/

namespace CallSchema

/-- The names that lead from the root of the disk to a path that exists. -/
def realNames (path : String) : IO (List String) := do
  let real ← IO.FS.realPath path
  return real.components.filter fun name => name != ""

def holdsPackage (dir : String) : IO Bool := do
  let document ← (try some <$> IO.FS.realPath (FileTree.joinPath dir packageDocument)
    catch _ => pure none)
  match document with
  | some p => return !(← p.isDir)
  | none => return false

/-- What a report says of an error of the system. -/
def accessFault : IO.Error → AccessFault
  | .noFileOrDirectory .. => .notFound
  | .inappropriateType _ 20 _ => .notDirectory
  | .inappropriateType .. => .isDirectory
  | .invalidArgument _ 36 _ => .nameTooLong
  | .permissionDenied .. => .denied
  | e => .other (toString e)

def readFile (path : String) : IO FileNode :=
  try return .file (← IO.FS.readBinFile path)
  catch e => return .stored (.error (accessFault e))

/-- The document of a package, which is found without listing its directory. -/
def readPackageDocument (dir : String) : IO (List (String × FileNode)) := do
  if ← holdsPackage dir then
    return [(packageDocument, ← readFile (FileTree.joinPath dir packageDocument))]
  else return []

/-- Reads a directory with its documents and packages. -/
partial def readDirectory (dir : String) : IO FileNode := do
  try
    let mut entries : List (String × FileNode) := []
    for entry in ← (← IO.FS.realPath dir).readDir do
      let name := entry.fileName
      let path := FileTree.joinPath dir name
      if ← entry.path.isDir then
        let node ← if ← holdsPackage path then readDirectory path else pure (.directory [])
        entries := (name, node) :: entries
      else if FileTree.hasExtension "json" name then
        entries := (name, ← readFile path) :: entries
    return .directory entries
  catch e => return .directory (← readPackageDocument dir) (some (accessFault e))

/-- The names of the top-most package around a directory, or of the directory itself. -/
partial def topDirectory (names : List String) : IO (List String) := do
  let above := names.dropLast
  if names.isEmpty then return names
  else if (← holdsPackage (FileTree.absolutePath names)) &&
      (← holdsPackage (FileTree.absolutePath above)) then
    topDirectory above
  else return names

/-- The part of the disk that a path is about. -/
def readTree (path : String) : IO FileTree := do
  let here ← realNames "."
  let mut root := FileNode.directory []
  try
    let names ← realNames path
    let isDirectory ← (← IO.FS.realPath path).isDir
    let dir := if isDirectory then names else names.dropLast
    let top ← if isDirectory then pure names else topDirectory dir
    root := .place (← readDirectory (FileTree.absolutePath top)) top root
    for n in [top.length:dir.length + 1] do
      for (name, node) in ← readPackageDocument (FileTree.absolutePath (dir.take n)) do
        root := .place node (dir.take n ++ [name]) root
    if !isDirectory then
      root := .place (← readFile path) names root
  catch _ => pure ()
  root := .makeDirectory here root
  let parts := FileTree.parts path
  for n in [1:parts.length] do
    let front := "/".intercalate (parts.take n)
    if !front.isEmpty then
      try root := .makeDirectory (← realNames front) root
      catch _ => pure ()
  return ⟨root, here⟩

/-- Writes the file of a report to the disk. -/
def writeFile (r : Report) : IO Report := do
  match r.file with
  | none => return r
  | some (path, text) =>
    try
      IO.FS.writeFile path text
      return { r with file := none }
    catch e => return r.unwritten path (accessFault e).text

def usage : String :=
  "usage: compile PATH [--include P] [--exclude P] [--import-depth N] [--output FILE] " ++
    "[--pretty]\n" ++
  "       check PATH [--include P] [--exclude P] [--import-depth N] [--format text|json]\n"

def Command.path : Command → String
  | .compile path .. => path
  | .check path .. => path

def execute (args : List String) : IO UInt32 := do
  match Command.parse? args with
  | none =>
    IO.eprint usage
    return 2
  | some command =>
    let tree ← readTree command.path
    let report ← writeFile (command.run tree)
    IO.eprint report.stderr
    IO.print report.stdout
    return UInt32.ofNat report.exitCode

end CallSchema

def main (args : List String) : IO UInt32 :=
  CallSchema.execute args
