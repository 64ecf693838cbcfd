import CallSchema.ModulePath
import CallSchema.SyntaxTree.Basic

/-! # Targets

The modules that are compiled together: a package, or one module with others around it.
-/

namespace CallSchema

/-- One parsed module of a target. -/
structure SourceUnit where
  path : ModulePath
  isPackage : Bool
  tree : SyntaxTree
  /-- Whether only the types of the module are of interest. -/
  contextOnly : Bool
deriving Repr

/-- How functions are named. -/
inductive ScanKind where
  /-- One module: by their bare names. -/
  | module
  /-- A package: by module path and name. -/
  | package
deriving DecidableEq, Repr

structure ScanTarget where
  kind : ScanKind
  /-- The package that module filtering starts below. -/
  root : ModulePath
  units : List SourceUnit
deriving Repr

namespace ScanTarget

/-- A single module; the others only give context. -/
def ofModule (unit : SourceUnit) (siblings : List SourceUnit) : ScanTarget :=
  ⟨.module, .root, unit :: siblings.map fun s => { s with contextOnly := true }⟩

def ofPackage (root : ModulePath) (units : List SourceUnit) : ScanTarget :=
  ⟨.package, root, units⟩

end ScanTarget

end CallSchema
