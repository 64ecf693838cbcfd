import CallSchema.Json.Skip
import CallSchema.SyntaxTree.Basic
import CallSchema.SyntaxTree.Kind
import CallSchema.Table

/-! # Reading syntax trees

A node is written as an object, or as the array of its fields in their fixed order, from which
fields with a default may be missing at the end. Unknown keys of an object are ignored; a known key
may stand there only once. The kind of a node comes first in an array and anywhere in an object.
-/

namespace CallSchema

namespace Decode

/-- The given fields of a node, at most one value for each declared name. -/
def fields? (names : List String) : Json → Option (Table String Json)
  | .obj ms =>
    let known := ms.filter fun m => decide (m.1 ∈ names)
    if (Table.keys known).Nodup then some known else none
  | .arr vs => if vs.length ≤ names.length then some (names.zip vs) else none
  | _ => none

variable {α κ : Type}

def required? (f : Json → Option α) (fields : Table String Json) (name : String) : Option α :=
  (fields.find? name).bind f

def defaulted? (f : Json → Option α) (default : α) (fields : Table String Json) (name : String) :
    Option α :=
  match fields.find? name with
  | some v => f v
  | none => some default

def nullable? (f : Json → Option α) : Json → Option (Option α)
  | .null => some none
  | v => (f v).map some

def optional? (f : Json → Option α) (fields : Table String Json) (name : String) :
    Option (Option α) :=
  defaulted? (nullable? f) none fields name

def list? (f : Json → Option α) : Json → Option (List α)
  | .arr vs => vs.mapM f
  | _ => none

def string? : Json → Option String
  | .str s => some s
  | _ => none

def bool? : Json → Option Bool
  | .bool b => some b
  | _ => none

def word? : Json → Option UInt32
  | .int i => if 0 ≤ i ∧ i < 4294967296 then some (UInt32.ofNat i.toNat) else none
  | _ => none

def int? : Json → Option Int64
  | .int i =>
    if -9223372036854775808 ≤ i ∧ i < 9223372036854775808 then some (Int64.ofInt i) else none
  | _ => none

def float? : Json → Option Binary64
  | .float x => some x
  | .int i => some (.ofInt i)
  | _ => none

/-- A kind is given by its label or, inside another node, by its number. The answer `none` is the
kind of all other nodes. -/
def kind? (kinds : List κ) (label : κ → String) (nested : Bool) : Json → Option (Option κ)
  | .str s => some (kinds.find? fun k => label k == s)
  | .int i => if nested ∧ 0 ≤ i then some kinds[i.toNat]? else none
  | _ => none

/-- The kind of a node and the node without it. -/
def tagged? (kinds : List κ) (label : κ → String) (nested : Bool) :
    Json → Option (Option κ × Json)
  | .obj ms =>
    match ms.filter fun m => m.1 == "kind" with
    | [(_, tag)] => do
      let k ← kind? kinds label nested tag
      some (k, .obj (ms.filter fun m => m.1 != "kind"))
    | _ => none
  | .arr (tag :: rest) => do
    let k ← kind? kinds label nested tag
    some (k, .arr rest)
  | _ => none

/-- What is left of a node of another kind does not matter, but an array must be empty. -/
def other? (node : α) : Json → Option α
  | .obj _ => some node
  | .arr [] => some node
  | _ => none

/-- The content of a constant that has none. -/
def isUnit : Json → Bool
  | .null => true
  | .obj [] => true
  | _ => false

def constant? : Json → Option Constant
  | .str s =>
    if s = "none" then some .none
    else if s = "ellipsis" then some .ellipsis
    else none
  | .obj [(key, v)] =>
    if key = "none" then (if isUnit v then some .none else none)
    else if key = "ellipsis" then (if isUnit v then some .ellipsis else none)
    else if key = "bool" then (bool? v).map .bool
    else if key = "int" then (int? v).map .int
    else if key = "float" then (float? v).map .float
    else if key = "str" then (string? v).map .str
    else if key = "bytes" then (string? v).map .bytes
    else if key = "complex" then (string? v).map .complex
    else none
  | _ => none

/-- An expression nested at most `depth` deep. -/
def expression? : Nat → Bool → Json → Option Expression
  | 0, _, _ => none
  | depth + 1, nested, v => do
    let (kind, node) ← tagged? ExpressionKind.all ExpressionKind.label nested v
    match kind with
    | some .name => do
      let fs ← fields? ["id"] node
      some (.name (← required? string? fs "id"))
    | some .attribute => do
      let fs ← fields? ["value", "attr"] node
      some (.attribute (← required? (expression? depth true) fs "value")
        (← required? string? fs "attr"))
    | some .subscript => do
      let fs ← fields? ["value", "slice"] node
      some (.subscript (← required? (expression? depth true) fs "value")
        (← required? (expression? depth true) fs "slice"))
    | some .tuple => do
      let fs ← fields? ["elts"] node
      some (.tuple (← required? (list? (expression? depth true)) fs "elts"))
    | some .constant => do
      let fs ← fields? ["value"] node
      some (.constant (← required? constant? fs "value"))
    | none => other? .other node

def nestedExpression? (v : Json) : Option Expression :=
  expression? v.depth true v

def importedName? (v : Json) : Option ImportedName := do
  let fs ← fields? ["name", "asname"] v
  some ⟨← required? string? fs "name", ← optional? string? fs "asname"⟩

def keyword? (v : Json) : Option ClassKeyword := do
  let fs ← fields? ["arg", "value"] v
  some ⟨← required? string? fs "arg", ← required? nestedExpression? fs "value"⟩

def argument? (v : Json) : Option Argument := do
  let fs ← fields? ["name", "annotation", "has_default"] v
  some ⟨← required? string? fs "name", ← optional? nestedExpression? fs "annotation",
    ← defaulted? bool? false fs "has_default"⟩

def arguments? (v : Json) : Option Arguments := do
  let fs ← fields? ["posonlyargs", "args", "vararg", "kwonlyargs", "kwarg"] v
  some
    { positionalOnly := ← defaulted? (list? argument?) [] fs "posonlyargs"
      positional := ← defaulted? (list? argument?) [] fs "args"
      variadic := ← optional? argument? fs "vararg"
      keywordOnly := ← defaulted? (list? argument?) [] fs "kwonlyargs"
      keywords := ← optional? argument? fs "kwarg" }

def functionDef? (v : Json) : Option FunctionDef := do
  let fs ← fields? ["name", "args", "returns", "lineno", "col_offset"] v
  some
    { name := ← required? string? fs "name"
      args := ← defaulted? arguments? .empty fs "args"
      returns := ← optional? nestedExpression? fs "returns"
      line := ← optional? word? fs "lineno"
      column := ← optional? word? fs "col_offset" }

/-- A statement nested at most `depth` deep. -/
def statement? : Nat → Bool → Json → Option Statement
  | 0, _, _ => none
  | depth + 1, nested, v => do
    let (kind, node) ← tagged? StatementKind.all StatementKind.label nested v
    match kind with
    | some .importModules => do
      let fs ← fields? ["names"] node
      some (.importModules (← required? (list? importedName?) fs "names"))
    | some .importFrom => do
      let fs ← fields? ["module", "level", "names"] node
      some (.importFrom (← optional? string? fs "module") (← defaulted? word? 0 fs "level")
        (← required? (list? importedName?) fs "names"))
    | some .assign => do
      let fs ← fields? ["targets", "value"] node
      some (.assign (← required? (list? nestedExpression?) fs "targets")
        (← required? nestedExpression? fs "value"))
    | some .declare => do
      let fs ← fields? ["target", "annotation", "value"] node
      some (.declare (← required? nestedExpression? fs "target")
        (← required? nestedExpression? fs "annotation") (← optional? nestedExpression? fs "value"))
    | some .classDef => do
      let fs ← fields? ["name", "bases", "keywords", "body"] node
      some (.classDef (← required? string? fs "name")
        (← defaulted? (list? nestedExpression?) [] fs "bases")
        (← defaulted? (list? keyword?) [] fs "keywords")
        (← defaulted? (list? (statement? depth true)) [] fs "body"))
    | some .functionDef => (functionDef? node).map .functionDef
    | none => other? .other node

end Decode

/-- The deepest nesting of a document. -/
def SyntaxTree.maxDepth : Nat :=
  127

def SyntaxTree.ofJson? (v : Json) : Option SyntaxTree := do
  let fs ← Decode.fields? ["body"] v
  some ⟨← Decode.defaulted? (Decode.list? (Decode.statement? v.depth false)) [] fs "body"⟩

/-- The syntax tree of a document. What else than its body a document holds is passed over. -/
def SyntaxTree.parse? (text : String) : Option SyntaxTree :=
  (Json.parseKeeping? (· == "body") maxDepth text).bind ofJson?

/-- An expression document; its own kind must be given by its label. -/
def Expression.ofJson? (v : Json) : Option Expression :=
  Decode.expression? v.depth false v

end CallSchema
