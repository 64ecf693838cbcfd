import CallSchema.Decimal.Style
import CallSchema.Json.Basic
import CallSchema.Text

/-! # Literal values

The JSON scalars that can be members of an enumeration. A whole number and a double are never the
same value, and doubles are compared as numbers.
-/

namespace CallSchema

inductive Literal where
  | null
  | bool (b : Bool)
  | int (i : Int64)
  | float (x : Binary64)
  | str (s : String)
deriving DecidableEq, Repr, Inhabited

namespace Literal

def toJson : Literal → Json
  | .null => .null
  | .bool b => .bool b
  | .int i => .int i.toInt
  | .float x => .ofBinary64 x
  | .str s => .str s

def text : Literal → String
  | .null => "None"
  | .bool b => boolText b
  | .int i => intText i.toInt
  | .float x => Decimal.plain.write x
  | .str s => "'" ++ s ++ "'"

def same : Literal → Literal → Bool
  | .float x, .float y => x.numEq y
  | a, b => decide (a = b)

def sameAll : List Literal → List Literal → Bool
  | [], [] => true
  | a :: as, b :: bs => same a b && sameAll as bs
  | _, _ => false

end Literal

/-- A member of a literal type as written; what is no scalar is kept as its text. -/
inductive LiteralMember where
  | value (v : Literal)
  | invalid (raw : String)
deriving DecidableEq, Repr, Inhabited

def LiteralMember.text : LiteralMember → String
  | .value v => v.text
  | .invalid raw => raw

end CallSchema
