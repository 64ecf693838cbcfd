import Mathlib.Algebra.Ring.Int.Defs
import CallSchema.Schema

/-! # Validation

What a JSON Schema document says about a JSON value, for the keywords that documents are made of
here. A number is the value it denotes, however it is written, and the order of the members of an
object does not count.
-/

namespace CallSchema

/-- The value of a finite double as a multiple of the least positive one. -/
def Binary64.value? (x : Binary64) : Option Int :=
  if x.isFinite then
    some (if x.isNegative then -(units x.magnitude : Int) else units x.magnitude)
  else none

namespace Json

/-- The number one as a multiple of the least positive double. -/
def one : Int :=
  2 ^ 1074

/-- The value of a number as a multiple of the least positive double. -/
def number? : Json → Option Int
  | .int i => some (i * one)
  | .float x => x.value?
  | _ => none

/-- Whether a value is a number without a fractional part. -/
def isWhole (v : Json) : Bool :=
  match v.number? with
  | some n => n % one == 0
  | none => false

def sameNumber (a b : Json) : Bool :=
  match a.number?, b.number? with
  | some x, some y => x == y
  | _, _ => false

mutual

/-- Equality of JSON values. -/
def equal : Json → Json → Bool
  | .null, .null => true
  | .bool a, .bool b => a == b
  | .str a, .str b => a == b
  | .arr as, .arr bs => equalAll as bs
  | .obj ps, .obj qs => ps.length == qs.length && equalMembers ps qs
  | a, b => sameNumber a b
termination_by structural v => v

def equalAll : List Json → List Json → Bool
  | [], [] => true
  | a :: as, b :: bs => equal a b && equalAll as bs
  | _, _ => false
termination_by structural v => v

/-- Whether each member is also one of the others. -/
def equalMembers : List (String × Json) → List (String × Json) → Bool
  | [], _ => true
  | (k, a) :: ps, qs =>
    (match Table.find? qs k with
      | some b => equal a b
      | none => false) && equalMembers ps qs
termination_by structural v => v

end

/-- The values of the keyword `type`. -/
def hasType (name : String) : Json → Bool
  | .null => name == "null"
  | .bool _ => name == "boolean"
  | .str _ => name == "string"
  | .arr _ => name == "array"
  | .obj _ => name == "object"
  | v => name == "number" || (name == "integer" && v.isWhole)

def items : Json → List Json
  | .arr vs => vs
  | _ => []

def members : Json → List (String × Json)
  | .obj ms => ms
  | _ => []

/-- The names that a schema declares as properties. -/
def declared (keywords : List (String × Json)) : List String :=
  match Table.find? keywords "properties" with
  | some s => s.members.map Prod.fst
  | none => []

mutual

/-- Whether a value satisfies a schema. -/
def admits : Json → Json → Bool
  | .bool b, _ => b
  | .obj keywords, v => admitsKeywords (declared keywords) keywords v
  | _, _ => false
termination_by structural s => s

/-- Whether a value satisfies each keyword; `names` are the declared properties, which
`additionalProperties` does not concern. -/
def admitsKeywords (names : List String) : List (String × Json) → Json → Bool
  | [], _ => true
  | (keyword, s) :: rest, v =>
    (if keyword = "type" then
        match s with
        | .str name => v.hasType name
        | _ => false
      else if keyword = "enum" then s.items.any fun w => w.equal v
      else if keyword = "items" then v.items.all fun w => admits s w
      else if keyword = "properties" then v.members.all fun p => admitsDeclared s p
      else if keyword = "required" then
        match v with
        | .obj ms => s.items.all fun w => ms.any fun p => w.equal (.str p.1)
        | _ => true
      else if keyword = "additionalProperties" then
        v.members.all fun p => decide (p.1 ∈ names) || admits s p.2
      else if keyword = "anyOf" then admitsSome s v
      else true) && admitsKeywords names rest v
termination_by structural s => s

/-- Whether a member satisfies the schema that is declared for it, if there is one. -/
def admitsDeclared : Json → String × Json → Bool
  | .obj properties, p => admitsProperty properties p
  | _, _ => false
termination_by structural s => s

def admitsProperty : List (String × Json) → String × Json → Bool
  | [], _ => true
  | (name, s) :: rest, p => if name = p.1 then admits s p.2 else admitsProperty rest p
termination_by structural s => s

def admitsSome : Json → Json → Bool
  | .arr schemas, v => admitsAny schemas v
  | _, _ => false
termination_by structural s => s

def admitsAny : List Json → Json → Bool
  | [], _ => false
  | s :: rest, v => admits s v || admitsAny rest v
termination_by structural s => s

end

section

variable (names : List String) (rest : List (String × Json)) (s v : Json)

@[simp] theorem admits_obj (keywords : List (String × Json)) :
    admits (.obj keywords) v = admitsKeywords (declared keywords) keywords v :=
  rfl

@[simp] theorem admitsKeywords_nil : admitsKeywords names [] v = true :=
  rfl

@[simp] theorem admitsKeywords_type (name : String) :
    admitsKeywords names (("type", .str name) :: rest) v =
      (v.hasType name && admitsKeywords names rest v) :=
  rfl

@[simp] theorem admitsKeywords_enum (values : List Json) :
    admitsKeywords names (("enum", .arr values) :: rest) v =
      (values.any (fun w => w.equal v) && admitsKeywords names rest v) :=
  rfl

@[simp] theorem admitsKeywords_items :
    admitsKeywords names (("items", s) :: rest) v =
      (v.items.all (fun w => s.admits w) && admitsKeywords names rest v) :=
  rfl

@[simp] theorem admitsKeywords_properties (properties : List (String × Json)) :
    admitsKeywords names (("properties", .obj properties) :: rest) v =
      (v.members.all (admitsProperty properties) && admitsKeywords names rest v) :=
  rfl

@[simp] theorem admitsKeywords_required (required : List Json) (ms : List (String × Json)) :
    admitsKeywords names (("required", .arr required) :: rest) (.obj ms) =
      (required.all (fun w => ms.any fun p => w.equal (.str p.1)) &&
        admitsKeywords names rest (.obj ms)) :=
  rfl

@[simp] theorem admitsKeywords_additionalProperties :
    admitsKeywords names (("additionalProperties", s) :: rest) v =
      (v.members.all (fun p => decide (p.1 ∈ names) || s.admits p.2) &&
        admitsKeywords names rest v) :=
  rfl

@[simp] theorem admitsKeywords_anyOf (schemas : List Json) :
    admitsKeywords names (("anyOf", .arr schemas) :: rest) v =
      (admitsAny schemas v && admitsKeywords names rest v) :=
  rfl

end

end Json

end CallSchema
