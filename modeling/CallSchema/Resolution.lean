import CallSchema.Environment.Lookup
import CallSchema.Schema

/-! # Resolution

Type expressions become schemas, names being replaced by what they are defined as. The schema of a
definition is remembered once it is known, and a definition that is met again while it is being
resolved is reported with the chain of names that leads back to it.
-/

namespace CallSchema

/-- What a resolver remembers between and during its calls. -/
structure Resolver where
  memo : Table TypeKey Schema
  /-- The definitions being resolved, outermost first. -/
  visiting : List TypeKey
deriving Repr

def Resolver.fresh : Resolver :=
  ⟨[], []⟩

/-- A computation that may fail and keeps what the resolver has learned also then. -/
abbrev Resolution (α : Type) := ExceptT Fault (StateM Resolver) α

namespace Resolution

/-- The values of a literal type, unless a member is none. -/
def literals : List LiteralMember → Except Fault (List Literal)
  | [] => .ok []
  | .value v :: rest => (literals rest).map (v :: ·)
  | .invalid raw :: _ => .error (.unsupportedLiteral raw)

mutual

/-- The schema of a type expression written in module `m`, given the schemas of names. -/
def expand (named : ModulePath → String → Resolution Schema) (m : ModulePath) :
    TypeExpr → Resolution Schema
  | .primitive p => pure (.ofPrimitive p)
  | .none => pure .null
  | .any => pure .any
  | .list item => do
    let items ← expand named m item
    pure (.array items)
  | .dict key value => do
    let keys ← expand named m key
    if keys.isString then
      let values ← expand named m value
      pure (.map values)
    else
      throw (.unsupportedKeyType (TypeExpr.dict key value).text)
  | .optional inner => do
    let schema ← expand named m inner
    pure (.unite [schema, .null])
  | .union members => do
    let schemas ← expandAll named m members
    pure (.unite schemas)
  | .literal members => do
    let values ← ExceptT.mk (pure (literals members))
    pure (.enum values)
  | .reference name => named m name
  | .external name => throw (.externalType name m.text)
  | .unsupported name => throw (.unsupportedType name "type has no JSON representation")

def expandAll (named : ModulePath → String → Resolution Schema) (m : ModulePath) :
    List TypeExpr → Resolution (List Schema)
  | [] => pure []
  | e :: es => do
    let schema ← expand named m e
    let schemas ← expandAll named m es
    pure (schema :: schemas)

end

def expandFields (named : ModulePath → String → Resolution Schema) (m : ModulePath) :
    Table String TypeExpr → Resolution (Table String Schema)
  | [] => pure []
  | (field, e) :: rest => do
    let schema ← expand named m e
    let schemas ← expandFields named m rest
    pure ((field, schema) :: schemas)

/-- The schema of a definition in module `m`. -/
def expandDefinition (named : ModulePath → String → Resolution Schema) (m : ModulePath) :
    Definition → Resolution Schema
  | .alias body => expand named m body
  | .record r => do
    let properties ← expandFields named m r.fields
    pure (.record properties (if r.total then r.fields.keys else []))
  | .invalid fault => throw fault

/-- The chain of definitions from the first use of `key` back to it. -/
def cycle (visiting : List TypeKey) (key : TypeKey) : Fault :=
  .cyclicDefinition
    ((visiting.dropWhile (fun k => decide (k ≠ key)) ++ [key]).map TypeKey.qualified)

/-- Runs a computation while `key` is being resolved, and remembers its schema. -/
def visit (key : TypeKey) (body : Resolution Schema) : Resolution Schema :=
  ExceptT.mk fun r =>
    let (result, r) := body.run { r with visiting := r.visiting ++ [key] }
    let r := { r with visiting := r.visiting.dropLast }
    match result with
    | .ok schema => (.ok schema, { r with memo := r.memo.enter key schema })
    | .error fault => (.error fault, r)

/-- The schema of a name. The fuel bounds the number of definitions within definitions. -/
def reference (env : Environment) (hops : Nat) : Nat → ModulePath → String → Resolution Schema
  | 0, m, name => throw (.unresolvedType name m.text)
  | fuel + 1, m, name =>
    match env.lookup hops ⟨m, name⟩ with
    | .external => throw (.externalType name m.text)
    | .missing => throw (.unresolvedType name m.text)
    | .found key definition => do
      let r ← get
      match r.memo.find? key with
      | some schema => pure schema
      | none =>
        if key ∈ r.visiting then throw (cycle r.visiting key)
        else visit key (expandDefinition (reference env hops fuel) key.module definition)

end Resolution

/-- The schema of a type expression written in module `m`. No definition is within itself, so
definitions nest at most as deep as there are any. -/
def Environment.resolve (env : Environment) (hops : Nat) (m : ModulePath) (e : TypeExpr) :
    Resolution Schema :=
  Resolution.expand (Resolution.reference env hops (env.catalog.length + 1)) m e

end CallSchema
