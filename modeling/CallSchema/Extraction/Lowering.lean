import CallSchema.Extraction.TypingNames
import CallSchema.Fault
import CallSchema.TypeExpr

/-! # From annotations to type expressions

An annotation is classified by the names its module has imported; nothing is evaluated and no
other module is asked.
-/

namespace CallSchema

/-- The names that decide what an annotation means. -/
structure Names where
  typing : TypingNames
  external : List String
deriving Repr

/-- Builtin types without a JSON form. -/
def nonJsonBuiltins : List String :=
  ["bytearray", "bytes", "complex", "frozenset", "memoryview", "object", "range", "set", "tuple",
    "type"]

def LiteralMember.ofExpression : Expression → LiteralMember
  | .constant .none => .value .null
  | .constant (.bool b) => .value (.bool b)
  | .constant (.int i) => .value (.int i)
  | .constant (.float x) => .value (.float x)
  | .constant (.str s) => .value (.str s)
  | e => .invalid e.describe

namespace Construct

def wrongCount (c : Construct) (whole : String) (expected given : Nat) : Fault :=
  .unsupportedType whole (c.name ++ " expects " ++ intText expected ++ " type argument(s), got "
    ++ intText given)

/-- Applies a construct to arguments, each given with the type expression it stands for. The number
of arguments is judged before any of them. -/
def apply (c : Construct) (whole : String) (args : List (Expression × Except Fault TypeExpr)) :
    Except Fault TypeExpr :=
  match c, args with
  | .list, [(_, item)] => item.map .list
  | .list, _ => .error (c.wrongCount whole 1 args.length)
  | .optional, [(_, inner)] => inner.map .optional
  | .optional, _ => .error (c.wrongCount whole 1 args.length)
  | .dict, [(_, key), (_, value)] => do
    let key ← key
    let value ← value
    .ok (.dict key value)
  | .dict, _ => .error (c.wrongCount whole 2 args.length)
  | .union, _ :: _ => (args.mapM Prod.snd).map .union
  | .literal, _ :: _ => .ok (.literal (args.map fun a => .ofExpression a.1))
  | _, _ => .error (.unsupportedType whole (c.name ++ " requires at least one argument"))

end Construct

namespace Names

/-- The meaning of a dotted name in a typing module. -/
def typingName? (n : Names) (dotted : String) : Option (Except Fault TypeExpr) :=
  match n.typing.construct? dotted with
  | some .any => some (.ok .any)
  | some .typedDict =>
    some (.error (.unsupportedType dotted "TypedDict is only valid as a base class"))
  | some c => some (.error (.unsupportedType dotted (c.name ++ " requires type arguments")))
  | none => if n.typing.isUnsupported dotted then some (.ok (.unsupported dotted)) else none

def lowerName (n : Names) (id : String) : Except Fault TypeExpr :=
  match n.typingName? id with
  | some result => result
  | none =>
    match Primitive.ofName? id with
    | some p => .ok (.primitive p)
    | none => if id ∈ nonJsonBuiltins then .ok (.unsupported id) else .ok (.reference id)

def lowerAttribute (n : Names) (e : Expression) : Except Fault TypeExpr :=
  match e.dottedName with
  | none => .error (.unsupportedType e.describe "not a type annotation")
  | some dotted =>
    match n.typingName? dotted with
    | some result => result
    | none =>
      if Dotted.root dotted ∈ n.external then .ok (.external dotted)
      else .error (.unsupportedType dotted
        "qualified names are only supported for typing constructs")

def notGeneric (e : Expression) : Fault :=
  .unsupportedType e.describe "only Dict, List, Literal, Optional and Union can be subscripted"

mutual

/-- The type expression that an annotation stands for. -/
def lower (n : Names) : Expression → Except Fault TypeExpr
  | .constant .none => .ok .none
  | .constant value =>
    .error (.unsupportedType value.describe "the only valid constant annotation is None")
  | .name id => n.lowerName id
  | .attribute value attr => n.lowerAttribute (.attribute value attr)
  | .subscript base (.tuple elements) =>
    match n.typing.generic? base with
    | some c =>
      c.apply (Expression.subscript base (.tuple elements)).describe (n.lowerEach elements)
    | none => .error (notGeneric (.subscript base (.tuple elements)))
  | .subscript base slice =>
    match n.typing.generic? base with
    | some c => c.apply (Expression.subscript base slice).describe [(slice, n.lower slice)]
    | none => .error (notGeneric (.subscript base slice))
  | .tuple elements =>
    .error (.unsupportedType (Expression.tuple elements).describe "not a type annotation")
  | .other => .error (.unsupportedType Expression.other.describe "not a type annotation")

def lowerEach (n : Names) : List Expression → List (Expression × Except Fault TypeExpr)
  | [] => []
  | e :: es => (e, n.lower e) :: n.lowerEach es

end

end Names

end CallSchema
