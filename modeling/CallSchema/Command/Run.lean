import CallSchema.Command.Args
import CallSchema.Discovery
import CallSchema.FileTree.Write
import CallSchema.Json.Printer

/-! # Running commands

What a command prints, the code it ends with, and the file it asks to be written.
-/

namespace CallSchema

/-- The effects of a command. -/
structure Report where
  exitCode : Nat
  stdout : String
  stderr : String
  /-- A path and the text to be written there. -/
  file : Option (String × String)
deriving DecidableEq, Repr

namespace Report

def lines (ls : List String) : String :=
  String.join (ls.map (· ++ "\n"))

/-- A report that ends with an error message. -/
def failure (exitCode : Nat) (message : String) : Report :=
  ⟨exitCode, "", lines ["Error: " ++ message], none⟩

end Report

/-- Where a function is defined, if its syntax tree says so. -/
def Diagnostic.location (d : Diagnostic) : String :=
  match d.position with
  | some p =>
    " (" ++ d.module.text ++ ":" ++ intText p.line.toNat ++ ":" ++ intText p.column.toNat ++ ")"
  | none => ""

namespace Command

/-- Patterns are judged before the path is looked at. -/
def scan (t : FileTree) (path : String) (o : ScanOptions) : Except Report Compilation :=
  match PatternFilter.compile o.included o.excluded with
  | .error e => .error (.failure 2 e.message)
  | .ok filter =>
    match t.discover path with
    | .error e => .error (.failure e.exitCode e.message)
    | .ok target => .ok (target.compile filter.toNameFilter o.importDepth)

def warning (d : Diagnostic) : String :=
  "Warning: skipped " ++ d.function ++ d.location ++ ": " ++ d.fault.message

/-- The schemas go to the output file or to standard output, and each function left out is warned
about. -/
def compileReport (c : Compilation) (output : Option String) (pretty : Bool) : Report :=
  let text := if pretty then c.toJson.pretty else c.toJson.compact
  let warnings := Report.lines (c.diagnostics.map warning)
  match output with
  | some path => ⟨0, "", warnings, some (path, text)⟩
  | none => ⟨0, Report.lines [text], warnings, none⟩

def red (s : String) : String :=
  "\x1b[31m" ++ s ++ "\x1b[0m"

def green (s : String) : String :=
  "\x1b[32m" ++ s ++ "\x1b[0m"

def rejectedLine (d : Diagnostic) : String :=
  "  " ++ red "✗" ++ " " ++ d.function ++ d.location ++ " " ++ red ("[" ++ d.fault.code ++ "]")
    ++ ": " ++ d.fault.message

def summary (compiled rejected : Nat) : String :=
  if rejected = 0 then green ("✓ " ++ intText compiled ++ " functions checked, all compiled")
  else red ("✗ " ++ intText (compiled + rejected : Nat) ++ " functions checked: "
    ++ intText compiled ++ " compiled, " ++ intText rejected ++ " rejected")

def checkText (c : Compilation) : String :=
  Report.lines ((c.schemas.keys.map fun name => "  " ++ green "✓" ++ " " ++ name)
    ++ c.diagnostics.map rejectedLine
    ++ ["", summary c.schemas.length c.diagnostics.length])

def checkJson (c : Compilation) : Json :=
  .obj [("compiled", .int c.schemas.length), ("rejected", .int c.diagnostics.length),
    ("diagnostics", .arr (c.diagnostics.map Diagnostic.toJson))]

/-- A check fails if a function was rejected. -/
def checkReport (c : Compilation) (format : String) : Report :=
  let text := if format = "json" then Report.lines [(checkJson c).pretty] else checkText c
  ⟨if c.diagnostics.isEmpty then 0 else 1, text, "", none⟩

def run (t : FileTree) : Command → Report
  | .compile path options output pretty =>
    match scan t path options with
    | .ok c => compileReport c output pretty
    | .error r => r
  | .check path options format =>
    match scan t path options with
    | .ok c => checkReport c format
    | .error r => r

end Command

namespace Report

/-- The report of a command whose file could not be written. -/
def unwritten (r : Report) (path cause : String) : Report :=
  { r with
    exitCode := 3
    stderr := r.stderr ++ lines ["Error writing to " ++ path ++ ": " ++ cause]
    file := none }

/-- Writes the file of a report into the tree. -/
def store (r : Report) (t : FileTree) : Report × FileTree :=
  match r.file with
  | none => (r, t)
  | some (path, text) =>
    match t.write path text.toUTF8 with
    | .ok t => ({ r with file := none }, t)
    | .error fault => (r.unwritten path fault.text, t)

end Report

end CallSchema
