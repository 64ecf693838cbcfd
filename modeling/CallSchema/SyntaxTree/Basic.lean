import CallSchema.Binary64

/-! # Syntax trees

The statements and expressions of a module that matter for function signatures. All other forms
are one statement `other` and one expression `other`.
-/

namespace CallSchema

/-- A literal constant as written in source. -/
inductive Constant where
  | none
  | bool (b : Bool)
  | int (i : Int64)
  | float (x : Binary64)
  | str (s : String)
  | bytes (s : String)
  | complex (s : String)
  | ellipsis
deriving DecidableEq, Repr, Inhabited

inductive Expression where
  | name (id : String)
  | attribute (value : Expression) (attr : String)
  | subscript (value slice : Expression)
  | tuple (elements : List Expression)
  | constant (value : Constant)
  | other
deriving Repr, Inhabited

/-- A name in an import, perhaps under another local name. -/
structure ImportedName where
  name : String
  asName : Option String
deriving DecidableEq, Repr

/-- The name an import binds in the importing module. -/
def ImportedName.bound (i : ImportedName) : String :=
  i.asName.getD i.name

/-- A keyword in the base list of a class. -/
structure ClassKeyword where
  arg : String
  value : Expression
deriving Repr

structure Argument where
  name : String
  hint : Option Expression
  hasDefault : Bool
deriving Repr

/-- The parameter list of a function definition. -/
structure Arguments where
  positionalOnly : List Argument
  positional : List Argument
  variadic : Option Argument
  keywordOnly : List Argument
  keywords : Option Argument
deriving Repr

def Arguments.empty : Arguments :=
  ⟨[], [], none, [], none⟩

/-- Where a definition stands in its source. -/
structure Position where
  line : UInt32
  column : UInt32
deriving DecidableEq, Repr

structure FunctionDef where
  name : String
  args : Arguments
  returns : Option Expression
  line : Option UInt32
  column : Option UInt32
deriving Repr

/-- A position is known as soon as its line is. -/
def FunctionDef.position (f : FunctionDef) : Option Position :=
  f.line.map fun line => ⟨line, f.column.getD 0⟩

inductive Statement where
  | importModules (names : List ImportedName)
  | importFrom (module : Option String) (level : UInt32) (names : List ImportedName)
  | assign (targets : List Expression) (value : Expression)
  | declare (target hint : Expression) (value : Option Expression)
  | classDef (name : String) (bases : List Expression) (keywords : List ClassKeyword)
    (body : List Statement)
  | functionDef (definition : FunctionDef)
  | other
deriving Repr, Inhabited

/-- One parsed source file. -/
structure SyntaxTree where
  body : List Statement
deriving Repr

end CallSchema
