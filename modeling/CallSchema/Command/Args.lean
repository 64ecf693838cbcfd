import CallSchema.Compilation

/-! # Command lines

A command line names a command, one path and options. Options may stand anywhere after the
command, as `--name value` or `--name=value`, and `--` ends them.
-/

namespace CallSchema

/-- What to look at, for both commands. -/
structure ScanOptions where
  included : List String
  excluded : List String
  importDepth : Nat
deriving DecidableEq, Repr

inductive Command where
  | compile (path : String) (scan : ScanOptions) (output : Option String) (pretty : Bool)
  | check (path : String) (scan : ScanOptions) (format : String)
deriving DecidableEq, Repr

namespace Command

/-- What an option takes, and whether it may be repeated. -/
inductive OptionKind where
  | flag
  | single
  | repeatable
deriving DecidableEq, Repr

def scanOptions : List (String × OptionKind) :=
  [("include", .repeatable), ("exclude", .repeatable), ("import-depth", .single)]

def compileOptions : List (String × OptionKind) :=
  scanOptions ++ [("output", .single), ("pretty", .flag)]

def checkOptions : List (String × OptionKind) :=
  scanOptions ++ [("format", .single)]

/-- The paths and options of a command line, in order. A flag has the empty value. -/
structure Given where
  paths : List String
  options : List (String × String)
deriving DecidableEq, Repr

namespace Given

def addPath (g : Given) (path : String) : Given :=
  { g with paths := g.paths ++ [path] }

def addOption (g : Given) (name value : String) : Given :=
  { g with options := g.options ++ [(name, value)] }

def values (g : Given) (name : String) : List String :=
  (g.options.filter fun o => o.1 == name).map Prod.snd

/-- The value of an option that is given at most once. -/
def single? (g : Given) (name : String) : Option (Option String) :=
  match g.values name with
  | [] => some none
  | [v] => some (some v)
  | _ => none

end Given

/-- An argument that starts with a hyphen and is not just one. -/
def isHyphenated : List Char → Bool
  | '-' :: _ :: _ => true
  | _ => false

/-- The name of a long option and the value after its equals sign. -/
def longOption? : List Char → Option (String × Option String)
  | '-' :: '-' :: rest =>
    match rest.span (· ≠ '=') with
    | (name, []) => some (String.ofList name, none)
    | (name, _ :: value) => some (String.ofList name, some (String.ofList value))
  | _ => none

/-- Sorts the arguments after the command into paths and options. -/
def gather? (kinds : List (String × OptionKind)) : Given → List String → Option Given
  | g, [] => some g
  | g, "--" :: rest => some (rest.foldl Given.addPath g)
  | g, arg :: rest =>
    if !isHyphenated arg.toList then gather? kinds (g.addPath arg) rest
    else
      match longOption? arg.toList with
      | none => none
      | some (name, value) =>
        match Table.find? kinds name, value, rest with
        | none, _, _ => none
        | some .flag, none, rest => gather? kinds (g.addOption name "") rest
        | some .flag, some _, _ => none
        | some _, some v, rest => gather? kinds (g.addOption name v) rest
        | some _, none, v :: rest =>
          if isHyphenated v.toList then none else gather? kinds (g.addOption name v) rest
        | some _, none, [] => none

/-- A number of hops is written in digits, perhaps after a plus sign, and fits 64 bits. -/
def importDepth? (text : String) : Option Nat :=
  let digits := match text.toList with
    | '+' :: rest => rest
    | cs => cs
  if digits.isEmpty || !digits.all Char.isDigit then none
  else
    let n := digits.foldl (fun n c => n * 10 + (c.toNat - '0'.toNat)) 0
    if n < Nat.pow 2 64 then some n else none

/-- There must be one path, and it must not be empty. -/
def path? (g : Given) : Option String :=
  match g.paths with
  | [p] => if p.isEmpty then none else some p
  | _ => none

def scan? (g : Given) : Option ScanOptions := do
  let depth ← g.single? "import-depth"
  let depth ← match depth with
    | some text => importDepth? text
    | none => some defaultImportDepth
  some ⟨g.values "include", g.values "exclude", depth⟩

def compile? (args : List String) : Option Command := do
  let g ← gather? compileOptions ⟨[], []⟩ args
  let path ← path? g
  let scan ← scan? g
  let output ← g.single? "output"
  let pretty ← g.single? "pretty"
  if output = some "" then none else some (.compile path scan output pretty.isSome)

def check? (args : List String) : Option Command := do
  let g ← gather? checkOptions ⟨[], []⟩ args
  let path ← path? g
  let scan ← scan? g
  let format ← g.single? "format"
  some (.check path scan (format.getD "text"))

/-- The command that a command line gives, if it is one. -/
def parse? : List String → Option Command
  | "compile" :: args => compile? args
  | "check" :: args => check? args
  | _ => none

end Command

end CallSchema
