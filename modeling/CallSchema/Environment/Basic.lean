import CallSchema.Fault
import CallSchema.ModulePath
import CallSchema.Table
import CallSchema.TypeExpr

/-! # Type environments

The definitions of all modules and the imports of each. Both are collected once and then only
read.
-/

namespace CallSchema

/-- A name inside a module. -/
structure TypeKey where
  module : ModulePath
  name : String
deriving DecidableEq, Repr, Inhabited

def TypeKey.qualified (k : TypeKey) : String :=
  k.module.qualify k.name

/-- A declared record; without `total` all its fields may be missing. -/
structure RecordType where
  total : Bool
  fields : Table String TypeExpr
deriving Repr

inductive Definition where
  | alias (body : TypeExpr)
  | record (declared : RecordType)
  /-- A declaration that could not be read; its use reports the fault. -/
  | invalid (fault : Fault)
deriving Repr

/-- What a module imports. -/
structure Scope where
  /-- The modules that relative imports lead to, in order. -/
  relative : List ModulePath
  /-- Local names for names of other modules. -/
  bindings : Table String TypeKey
  /-- Names bound by absolute imports. -/
  external : List String
deriving Repr

namespace Scope

def empty : Scope :=
  ⟨[], [], []⟩

def addRelative (s : Scope) (target : ModulePath) : Scope :=
  { s with relative := addNew s.relative target }

def bind (s : Scope) (localName : String) (target : TypeKey) : Scope :=
  { s.addRelative target.module with bindings := s.bindings.enter localName target }

def addExternal (s : Scope) (name : String) : Scope :=
  { s with external := addNew s.external name }

def isExternal (s : Scope) (name : String) : Bool :=
  decide (name ∈ s.external)

/-- Where a name may come from: the name it is bound to, then the same name in each module that
relative imports lead to. -/
def sources (s : Scope) (name : String) : List TypeKey :=
  (s.bindings.find? name).toList ++ s.relative.map fun m => ⟨m, name⟩

end Scope

structure Environment where
  catalog : Table TypeKey Definition
  scopes : Table ModulePath Scope
deriving Repr

namespace Environment

def empty : Environment :=
  ⟨[], []⟩

def define (env : Environment) (key : TypeKey) (d : Definition) : Environment :=
  { env with catalog := env.catalog.enter key d }

def addScope (env : Environment) (module : ModulePath) (scope : Scope) : Environment :=
  { env with scopes := env.scopes.enter module scope }

/-- The modules that the relative imports of a module lead to. -/
def neighbours (env : Environment) (module : ModulePath) : List ModulePath :=
  match env.scopes.find? module with
  | some scope => scope.relative
  | none => []

end Environment

end CallSchema
