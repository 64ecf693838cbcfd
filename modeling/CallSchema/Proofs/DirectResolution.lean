import CallSchema.Compilation
import CallSchema.Proofs.References
import CallSchema.Proofs.Results
import CallSchema.Proofs.Tables

/-! # Resolution without a memo

The resolver that remembers nothing: every use of a definition is resolved anew, and only the
definitions being resolved are known. It needs no fuel, because a definition is entered only while
it is not being resolved already.
-/

namespace CallSchema

/-- The number of definitions that are not being resolved. -/
def Environment.unvisited (env : Environment) (visiting : List TypeKey) : Nat :=
  (env.catalog.keys.filter fun key => decide (key ∉ visiting)).length

theorem Environment.unvisited_lt {env : Environment} {visiting : List TypeKey} {key : TypeKey}
    {d : Definition} (hd : env.catalog.find? key = some d) (hk : key ∉ visiting) :
    env.unvisited (visiting ++ [key]) < env.unvisited visiting := by
  have hsplit : (env.catalog.keys.filter fun k => decide (k ∉ visiting ++ [key])) =
      (env.catalog.keys.filter fun k => decide (k ∉ visiting)).filter
        fun k => decide (k ≠ key) := by
    rw [List.filter_filter]
    apply List.filter_congr
    intro k _
    simp [and_comm]
  have hmem : key ∈ env.catalog.keys.filter fun k => decide (k ∉ visiting) :=
    List.mem_filter.mpr ⟨Table.mem_keys_of_find? hd, by simpa using hk⟩
  unfold unvisited
  rw [hsplit]
  exact List.length_filter_lt_length_iff_exists.mpr ⟨key, hmem, by simp⟩

namespace Direct

mutual

/-- The schema of a type expression written in module `m`, given the schemas of names. -/
def expand (named : String → Except Fault Schema) (m : ModulePath) :
    TypeExpr → Except Fault Schema
  | .primitive p => .ok (.ofPrimitive p)
  | .none => .ok .null
  | .any => .ok .any
  | .list item => do
    let items ← expand named m item
    .ok (.array items)
  | .dict key value => do
    let keys ← expand named m key
    if keys.isString then
      let values ← expand named m value
      .ok (.map values)
    else
      .error (.unsupportedKeyType (TypeExpr.dict key value).text)
  | .optional inner => do
    let schema ← expand named m inner
    .ok (.unite [schema, .null])
  | .union members => do
    let schemas ← expandAll named m members
    .ok (.unite schemas)
  | .literal members => do
    let values ← Resolution.literals members
    .ok (.enum values)
  | .reference name => named name
  | .external name => .error (.externalType name m.text)
  | .unsupported name => .error (.unsupportedType name "type has no JSON representation")

def expandAll (named : String → Except Fault Schema) (m : ModulePath) :
    List TypeExpr → Except Fault (List Schema)
  | [] => .ok []
  | e :: es => do
    let schema ← expand named m e
    let schemas ← expandAll named m es
    .ok (schema :: schemas)

end

/-- The schema of a definition in module `m`. -/
def expandDefinition (named : String → Except Fault Schema) (m : ModulePath) :
    Definition → Except Fault Schema
  | .alias body => expand named m body
  | .record r => do
    let schemas ← expandAll named m (r.fields.map Prod.snd)
    .ok (.record (r.fields.keys.zip schemas) (if r.total then r.fields.keys else []))
  | .invalid fault => .error fault

/-- The schema of a name while the definitions `visiting` are being resolved. -/
def reference (env : Environment) (hops : Nat) (visiting : List TypeKey) (m : ModulePath)
    (name : String) : Except Fault Schema :=
  match _h : env.lookup hops ⟨m, name⟩ with
  | .external => .error (.externalType name m.text)
  | .missing => .error (.unresolvedType name m.text)
  | .found key definition =>
    if _hk : key ∈ visiting then .error (Resolution.cycle visiting key)
    else
      expandDefinition (reference env hops (visiting ++ [key]) key.module) key.module definition
termination_by env.unvisited visiting
decreasing_by exact Environment.unvisited_lt (Environment.lookup_found _h) _hk

section

variable {env : Environment} {hops : Nat} {m : ModulePath} {name : String}

theorem reference_of_external (visiting : List TypeKey)
    (h : env.lookup hops ⟨m, name⟩ = .external) :
    reference env hops visiting m name = .error (.externalType name m.text) := by
  rw [reference]
  split <;> simp_all

theorem reference_of_missing (visiting : List TypeKey)
    (h : env.lookup hops ⟨m, name⟩ = .missing) :
    reference env hops visiting m name = .error (.unresolvedType name m.text) := by
  rw [reference]
  split <;> simp_all

theorem reference_of_found (visiting : List TypeKey) {key : TypeKey} {d : Definition}
    (h : env.lookup hops ⟨m, name⟩ = .found key d) :
    reference env hops visiting m name =
      if key ∈ visiting then .error (Resolution.cycle visiting key)
      else expandDefinition (reference env hops (visiting ++ [key]) key.module) key.module d := by
  rw [reference]
  split
  · simp_all
  · simp_all
  · rename_i key' d' hl
    cases h.symm.trans hl
    rfl

end

/-- The schema of a type expression written in module `m`. -/
def resolve (env : Environment) (hops : Nat) (m : ModulePath) (e : TypeExpr) :
    Except Fault Schema :=
  expand (reference env hops [] m) m e

/-- Resolves parameters from left to right. -/
def compileParameters (env : Environment) (hops : Nat) (m : ModulePath) :
    InputSchema → List Parameter → Except Fault InputSchema
  | input, [] => .ok input
  | input, p :: ps => do
    let schema ← resolve env hops m p.type
    compileParameters env hops m (input.add p schema) ps

/-- The schemas of a signature; its first fault is reported. -/
def compileFunction (env : Environment) (hops : Nat) (s : Signature) :
    Except Fault FunctionSchema := do
  let input ← compileParameters env hops s.module .empty s.parameters
  let output ← resolve env hops s.module s.returns
  .ok ⟨input.toSchema, output⟩

end Direct

end CallSchema
