/-! # Kinds of nodes

The kinds by which documents tell statements and expressions apart, in the order that numbers
them. What has none of these kinds is an `other` node.
-/

namespace CallSchema

inductive ExpressionKind where
  | name
  | attribute
  | subscript
  | tuple
  | constant
deriving DecidableEq, Repr

def ExpressionKind.label : ExpressionKind → String
  | .name => "name"
  | .attribute => "attribute"
  | .subscript => "subscript"
  | .tuple => "tuple"
  | .constant => "constant"

def ExpressionKind.all : List ExpressionKind :=
  [.name, .attribute, .subscript, .tuple, .constant]

inductive StatementKind where
  | importModules
  | importFrom
  | assign
  | declare
  | classDef
  | functionDef
deriving DecidableEq, Repr

def StatementKind.label : StatementKind → String
  | .importModules => "import"
  | .importFrom => "import_from"
  | .assign => "assign"
  | .declare => "ann_assign"
  | .classDef => "class_def"
  | .functionDef => "function_def"

def StatementKind.all : List StatementKind :=
  [.importModules, .importFrom, .assign, .declare, .classDef, .functionDef]

end CallSchema
