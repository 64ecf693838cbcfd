import CallSchema.SyntaxTree.Text
import CallSchema.Table

/-! # Typing names

The constructs of the typing modules, and the names under which one module has imported them.
-/

namespace CallSchema

/-- The typing constructs with a meaning for schemas. -/
inductive Construct where
  | any
  | dict
  | list
  | literal
  | optional
  | union
  | typedDict
deriving DecidableEq, Repr

namespace Construct

def name : Construct → String
  | .any => "Any"
  | .dict => "Dict"
  | .list => "List"
  | .literal => "Literal"
  | .optional => "Optional"
  | .union => "Union"
  | .typedDict => "TypedDict"

def all : List Construct :=
  [.any, .dict, .list, .literal, .optional, .union, .typedDict]

def ofName? (s : String) : Option Construct :=
  all.find? fun c => c.name == s

/-- Whether the construct takes arguments. -/
def isGeneric : Construct → Bool
  | .any => false
  | .typedDict => false
  | _ => true

end Construct

/-- The local names of one module that mean something of a typing module. -/
structure TypingNames where
  constructs : Table String Construct
  /-- The local names of the typing modules themselves. -/
  modules : List String
  /-- Imported names without a JSON form. -/
  unsupported : List String
deriving Repr

namespace TypingNames

def empty : TypingNames :=
  ⟨[], [], []⟩

def isTypingModule (name : String) : Bool :=
  name == "typing" || name == "typing_extensions"

def importModule (t : TypingNames) (bound : String) : TypingNames :=
  { t with
    constructs := t.constructs.enterAll (Construct.all.map fun c => (bound ++ "." ++ c.name, c))
    modules := addNew t.modules bound }

def importName (t : TypingNames) (name bound : String) : TypingNames :=
  match Construct.ofName? name with
  | some c => { t with constructs := t.constructs.enter bound c }
  | none => { t with unsupported := addNew t.unsupported bound }

def construct? (t : TypingNames) (dotted : String) : Option Construct :=
  t.constructs.find? dotted

/-- Whether a name, bare or below a typing module, has no JSON form. -/
def isUnsupported (t : TypingNames) (dotted : String) : Bool :=
  decide (dotted ∈ t.unsupported) ||
    match Dotted.beforeLast? dotted with
    | some module => decide (module ∈ t.modules)
    | none => false

/-- The construct that an expression names. -/
def named? (t : TypingNames) (e : Expression) : Option Construct :=
  e.dottedName.bind t.construct?

/-- The construct that an expression names, if it takes arguments. -/
def generic? (t : TypingNames) (e : Expression) : Option Construct :=
  (t.named? e).filter Construct.isGeneric

end TypingNames

end CallSchema
