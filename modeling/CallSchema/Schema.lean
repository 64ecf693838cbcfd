import CallSchema.Literal
import CallSchema.Table
import CallSchema.TypeExpr

/-! # Schemas

Trees of JSON Schema keywords, their JSON documents, and the equality by which alternatives are
merged: the order of properties does not count, the order of everything else does.
-/

namespace CallSchema

/-- What an object may hold besides its declared properties. -/
inductive Additional (σ : Type) where
  | anything
  | nothing
  | each (values : σ)
deriving Repr, Inhabited

inductive Schema where
  | null
  | boolean
  | integer
  | number
  | string
  | enum (values : List Literal)
  | anyArray
  | array (items : Schema)
  /-- An object without declared properties. -/
  | mapping (rest : Additional Schema)
  | object (properties : List (String × Schema)) (required : List String)
    (rest : Additional Schema)
  | anyOf (variants : List Schema)
deriving Repr, Inhabited

namespace Schema

/-- Every JSON value, by its type. -/
def any : Schema :=
  .anyOf [.mapping .anything, .anyArray, .null, .string, .boolean, .integer, .number]

/-- An object with string keys and values of one kind. -/
def map (values : Schema) : Schema :=
  .mapping (.each values)

/-- An object with the declared properties only. -/
def record (properties : List (String × Schema)) (required : List String) : Schema :=
  .object properties required .nothing

def ofPrimitive : Primitive → Schema
  | .bool => .boolean
  | .int => .integer
  | .float => .number
  | .str => .string

def isString : Schema → Bool
  | .string => true
  | _ => false

def typeMember (name : String) : String × Json :=
  ("type", .str name)

mutual

/-- The keywords of a schema with their values. -/
def members : Schema → List (String × Json)
  | .null => [typeMember "null"]
  | .boolean => [typeMember "boolean"]
  | .integer => [typeMember "integer"]
  | .number => [typeMember "number"]
  | .string => [typeMember "string"]
  | .enum values => [("enum", .arr (values.map Literal.toJson))]
  | .anyArray => [typeMember "array"]
  | .array items => [typeMember "array", ("items", .obj (members items))]
  | .mapping rest => typeMember "object" :: additionalMembers rest
  | .object properties required rest =>
    typeMember "object" :: ("properties", .obj (propertyMembers properties)) ::
      ("required", .ofStrings required) :: additionalMembers rest
  | .anyOf variants => [("anyOf", .arr (toJsonAll variants))]

def additionalMembers : Additional Schema → List (String × Json)
  | .anything => []
  | .nothing => [("additionalProperties", .bool false)]
  | .each values => [("additionalProperties", .obj (members values))]

def propertyMembers : List (String × Schema) → List (String × Json)
  | [] => []
  | (k, s) :: ps => (k, .obj (members s)) :: propertyMembers ps

def toJsonAll : List Schema → List Json
  | [] => []
  | s :: ss => .obj (members s) :: toJsonAll ss

end

def toJson (s : Schema) : Json :=
  .obj s.members

/-- The version of the schema language that documents declare. -/
def draft : String :=
  "http://json-schema.org/draft-07/schema#"

/-- The schema with its language in front. -/
def document (s : Schema) : Json :=
  .obj (("$schema", .str draft) :: s.members)

mutual

def same : Schema → Schema → Bool
  | .null, .null => true
  | .boolean, .boolean => true
  | .integer, .integer => true
  | .number, .number => true
  | .string, .string => true
  | .enum as, .enum bs => Literal.sameAll as bs
  | .anyArray, .anyArray => true
  | .array a, .array b => same a b
  | .mapping a, .mapping b => sameAdditional a b
  | .object ps r a, .object qs t b =>
    ps.length == qs.length && sameProperties ps qs && r == t && sameAdditional a b
  | .anyOf as, .anyOf bs => sameAll as bs
  | _, _ => false
termination_by structural s => s

def sameAdditional : Additional Schema → Additional Schema → Bool
  | .anything, .anything => true
  | .nothing, .nothing => true
  | .each a, .each b => same a b
  | _, _ => false
termination_by structural s => s

/-- Whether each property is also one of the others. -/
def sameProperties : List (String × Schema) → List (String × Schema) → Bool
  | [], _ => true
  | (k, s) :: ps, qs =>
    (match Table.find? qs k with
      | some t => same s t
      | none => false) && sameProperties ps qs
termination_by structural s => s

def sameAll : List Schema → List Schema → Bool
  | [], [] => true
  | a :: as, b :: bs => same a b && sameAll as bs
  | _, _ => false
termination_by structural s => s

end

/-- Appends an alternative unless an equal one is there. -/
def addVariant (variants : List Schema) (s : Schema) : List Schema :=
  if variants.any (same · s) then variants else variants ++ [s]

/-- Appends a schema as an alternative; alternatives of alternatives are merged. -/
def absorb (variants : List Schema) : Schema → List Schema
  | .anyOf nested => nested.foldl addVariant variants
  | s => addVariant variants s

/-- The alternatives of a union of schemas, each once and in the order of first occurrence. -/
def unite (members : List Schema) : Schema :=
  .anyOf (members.foldl absorb [])

end Schema

end CallSchema
