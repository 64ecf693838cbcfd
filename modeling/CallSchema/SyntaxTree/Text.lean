import CallSchema.Decimal.Style
import CallSchema.Dotted
import CallSchema.SyntaxTree.Basic
import CallSchema.Text

/-! # Expressions as text

The dotted name of a chain of attributes, and the short rendering of an expression that messages
quote.
-/

namespace CallSchema

def Constant.describe : Constant → String
  | .none => "None"
  | .bool b => boolText b
  | .int i => intText i.toInt
  | .float x => Decimal.plain.write x
  | .str s => "'" ++ s ++ "'"
  | .bytes s => "b'" ++ s ++ "'"
  | .complex s => s
  | .ellipsis => "..."

namespace Expression

/-- The dotted form of a name or of attributes of a name. -/
def dottedName : Expression → Option String
  | .name id => some id
  | .attribute value attr => value.dottedName.map fun base => base ++ "." ++ attr
  | _ => none

/-- The chain of attributes that a dotted name stands for. -/
def dotted (path : String) : Expression :=
  match Dotted.parts path with
  | [] => .name ""
  | first :: rest => rest.foldl .attribute (.name first)

/-- A subscript; several arguments form a tuple. -/
def applied (base : Expression) : List Expression → Expression
  | [arg] => .subscript base arg
  | args => .subscript base (.tuple args)

mutual

def describe : Expression → String
  | .name id => id
  | .attribute value attr => (Expression.attribute value attr).dottedName.getD "<attribute>"
  | .subscript value slice => describe value ++ "[" ++ describe slice ++ "]"
  | .tuple elements => commaSeparated (describeAll elements)
  | .constant value => value.describe
  | .other => "<expression>"

def describeAll : List Expression → List String
  | [] => []
  | e :: es => describe e :: describeAll es

end

end Expression

end CallSchema
