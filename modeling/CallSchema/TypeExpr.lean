import CallSchema.Literal
import CallSchema.ModulePath

/-! # Type expressions

Annotations classified into the shapes that have a schema, together with those that are kept only
to be refused later.
-/

namespace CallSchema

/-- The builtin types with a JSON type of their own. -/
inductive Primitive where
  | bool
  | int
  | float
  | str
deriving DecidableEq, Repr, Inhabited

namespace Primitive

def name : Primitive → String
  | .bool => "bool"
  | .int => "int"
  | .float => "float"
  | .str => "str"

def all : List Primitive :=
  [.bool, .int, .float, .str]

def ofName? (s : String) : Option Primitive :=
  all.find? fun p => p.name == s

end Primitive

inductive TypeExpr where
  | primitive (p : Primitive)
  | none
  | any
  | list (item : TypeExpr)
  | dict (key value : TypeExpr)
  | optional (inner : TypeExpr)
  | union (members : List TypeExpr)
  | literal (members : List LiteralMember)
  /-- An alias or record, to be looked up. -/
  | reference (name : String)
  /-- A dotted name below an absolute import. -/
  | external (name : String)
  /-- A builtin without a JSON form. -/
  | unsupported (name : String)
deriving Repr, Inhabited

namespace TypeExpr

mutual

def text : TypeExpr → String
  | .primitive p => p.name
  | .none => "None"
  | .any => "Any"
  | .list item => "List[" ++ text item ++ "]"
  | .dict key value => "Dict[" ++ text key ++ ", " ++ text value ++ "]"
  | .optional inner => "Optional[" ++ text inner ++ "]"
  | .union members => "Union[" ++ commaSeparated (textAll members) ++ "]"
  | .literal members => "Literal[" ++ commaSeparated (members.map LiteralMember.text) ++ "]"
  | .reference name => name
  | .external name => name
  | .unsupported name => name

def textAll : List TypeExpr → List String
  | [] => []
  | e :: es => text e :: textAll es

end

end TypeExpr

/-- How an argument is passed to a parameter. -/
inductive ParameterKind where
  | positional
  | keywordOnly
  /-- Takes all further keyword arguments. -/
  | varKeyword
deriving DecidableEq, Repr, Inhabited

structure Parameter where
  name : String
  type : TypeExpr
  hasDefault : Bool
  kind : ParameterKind
deriving Repr

/-- Whether every call must give the parameter. -/
def Parameter.isRequired (p : Parameter) : Bool :=
  !p.hasDefault && decide (p.kind ≠ .varKeyword)

/-- A fully annotated function, whose types are not resolved yet. -/
structure Signature where
  name : String
  module : ModulePath
  parameters : List Parameter
  returns : TypeExpr
deriving Repr

end CallSchema
