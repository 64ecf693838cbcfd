import CallSchema.Extraction.Basic
import CallSchema.NameFilter
import CallSchema.Resolution
import CallSchema.Target

/-! # Compilation

All modules of a target are extracted first, so that every definition and import is known. Then
each selected function is resolved to the schemas of its arguments and of its result; a function
with a fault is reported and the others go on.
-/

namespace CallSchema

/-- The schemas of the arguments and of the result of a function. -/
structure FunctionSchema where
  input : Schema
  output : Schema
deriving Repr

/-- A function that has no schemas, and why. -/
structure Diagnostic where
  function : String
  module : ModulePath
  position : Option Position
  fault : Fault
deriving DecidableEq, Repr

structure Compilation where
  schemas : Table String FunctionSchema
  diagnostics : List Diagnostic
deriving Repr

def Compilation.empty : Compilation :=
  ⟨[], []⟩

/-- The object schema of an argument list under construction. -/
structure InputSchema where
  properties : Table String Schema
  required : List String
  rest : Additional Schema
deriving Repr

namespace InputSchema

def empty : InputSchema :=
  ⟨[], [], .nothing⟩

def add (i : InputSchema) (p : Parameter) (schema : Schema) : InputSchema :=
  match p.kind with
  | .varKeyword => { i with rest := .each schema }
  | _ =>
    { i with
      properties := i.properties.enter p.name schema
      required := if p.isRequired then i.required ++ [p.name] else i.required }

def toSchema (i : InputSchema) : Schema :=
  .object i.properties i.required i.rest

end InputSchema

/-- Resolves parameters from left to right. -/
def Environment.compileParameters (env : Environment) (hops : Nat) (m : ModulePath) :
    InputSchema → List Parameter → Resolution InputSchema
  | input, [] => pure input
  | input, p :: ps => do
    let schema ← env.resolve hops m p.type
    env.compileParameters hops m (input.add p schema) ps

/-- The schemas of a signature; its first fault is reported. -/
def Environment.compileFunction (env : Environment) (hops : Nat) (s : Signature) :
    Resolution FunctionSchema := do
  let input ← env.compileParameters hops s.module .empty s.parameters
  let output ← env.resolve hops s.module s.returns
  pure ⟨input.toSchema, output⟩

/-- A function that was selected for compilation. -/
structure Candidate where
  key : String
  module : ModulePath
  position : Option Position
  signature : Except Fault Signature

namespace ScanTarget

/-- Below the root of a package all parts of the path must pass; a single module always does. -/
def allowsUnit (t : ScanTarget) (filter : NameFilter) (u : SourceUnit) : Bool :=
  match t.kind with
  | .module => true
  | .package => (u.path.segments.drop t.root.segments.length).all (filter.allows .module)

def functionKey (t : ScanTarget) (module : ModulePath) (function : String) : String :=
  match t.kind with
  | .module => function
  | .package => (module.join function).text

def unitCandidates (t : ScanTarget) (filter : NameFilter) (u : SourceUnit) (x : ModuleExtract) :
    List Candidate :=
  if u.contextOnly || !t.allowsUnit filter u then []
  else
    (x.functions.filter fun f => filter.allows .function f.name).map fun f =>
      ⟨t.functionKey u.path f.name, u.path, f.position, f.signature⟩

/-- The units with what they declare. -/
def extracts (t : ScanTarget) : List (SourceUnit × ModuleExtract) :=
  t.units.map fun u => (u, u.tree.extract u.path u.isPackage)

end ScanTarget

/-- Adds what a module declares. -/
def Environment.addModule (env : Environment) (path : ModulePath) (x : ModuleExtract) :
    Environment :=
  (x.definitions.foldl (fun env (name, d) => env.define ⟨path, name⟩ d) env).addScope path x.scope

namespace ScanTarget

/-- The definitions and imports of all units, whether they are compiled or not. -/
def environment (t : ScanTarget) : Environment :=
  t.extracts.foldl (fun env (u, x) => env.addModule u.path x) .empty

def candidates (t : ScanTarget) (filter : NameFilter) : List Candidate :=
  t.extracts.flatMap fun (u, x) => t.unitCandidates filter u x

end ScanTarget

namespace Candidate

def compile (env : Environment) (hops : Nat) (c : Candidate) : Resolution FunctionSchema :=
  match c.signature with
  | .ok s => env.compileFunction hops s
  | .error fault => throw fault

end Candidate

/-- Adds the outcome of a candidate. -/
def Compilation.add (out : Compilation) (c : Candidate) : Except Fault FunctionSchema → Compilation
  | .ok s => { out with schemas := out.schemas.enter c.key s }
  | .error fault =>
    { out with diagnostics := out.diagnostics ++ [⟨c.key, c.module, c.position, fault⟩] }

/-- Compiles candidates one after the other with one resolver. -/
def Compilation.run (env : Environment) (hops : Nat) : Resolver → Compilation → List Candidate →
    Compilation
  | _, out, [] => out
  | r, out, c :: rest =>
    let (result, r) := (c.compile env hops).run r
    run env hops r (out.add c result) rest

/-- How many imports a lookup follows if nothing else is said. -/
def defaultImportDepth : Nat :=
  16

/-- Compiles every function of the target that the filter allows. -/
def ScanTarget.compile (t : ScanTarget) (filter : NameFilter) (hops : Nat) : Compilation :=
  .run t.environment hops .fresh .empty (t.candidates filter)

namespace FunctionSchema

def toJson (s : FunctionSchema) : Json :=
  .obj [("input", s.input.document), ("output", s.output.document)]

end FunctionSchema

namespace Diagnostic

def toJson (d : Diagnostic) : Json :=
  let place := match d.position with
    | some p => [("line", Json.int p.line.toNat), ("column", Json.int p.column.toNat)]
    | none => []
  .obj ([("function", .str d.function), ("module", .str d.module.text)] ++ place
    ++ [("code", .str d.fault.code), ("message", .str d.fault.message)])

end Diagnostic

/-- All schemas by function. -/
def Compilation.toJson (c : Compilation) : Json :=
  .obj (c.schemas.map fun (name, s) => (name, s.toJson))

end CallSchema
