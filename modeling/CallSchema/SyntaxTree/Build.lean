import CallSchema.SyntaxTree.Text

/-! # Building syntax trees

Short forms of the statements and expressions that occur most.
-/

namespace CallSchema

def ImportedName.plain (name : String) : ImportedName :=
  ⟨name, none⟩

def ImportedName.aliased (name asName : String) : ImportedName :=
  ⟨name, some asName⟩

def Argument.typed (name : String) (hint : Expression) : Argument :=
  ⟨name, some hint, false⟩

def Argument.untyped (name : String) : Argument :=
  ⟨name, none, false⟩

def Argument.withDefault (a : Argument) : Argument :=
  { a with hasDefault := true }

def Arguments.ofPositional (args : List Argument) : Arguments :=
  { Arguments.empty with positional := args }

namespace Expression

def noneConstant : Expression :=
  .constant .none

def text (s : String) : Expression :=
  .constant (.str s)

end Expression

namespace Statement

def importModule (name : String) : Statement :=
  .importModules [.plain name]

def assignName (target : String) (value : Expression) : Statement :=
  .assign [.name target] value

/-- A typed name without a value. -/
def field (name : String) (hint : Expression) : Statement :=
  .declare (.name name) hint none

def plainClass (name : String) (bases : List Expression) (body : List Statement) : Statement :=
  .classDef name bases [] body

def function (name : String) (args : Arguments) (returns : Option Expression) : Statement :=
  .functionDef ⟨name, args, returns, none, none⟩

/-- Gives a function definition its place in the source; other statements have none. -/
def placedAt (line column : UInt32) : Statement → Statement
  | .functionDef f => .functionDef { f with line := some line, column := some column }
  | s => s

end Statement

end CallSchema
