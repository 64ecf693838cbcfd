import CallSchema.Environment.Basic
import CallSchema.Extraction.Lowering

/-! # Extraction

One pass over the top-level statements of a module collects its imports, the types it defines and
the signatures of its functions. Each statement is read with the names known before it.
-/

namespace CallSchema

/-- A function definition with its signature or the fault that it has none. -/
structure ExtractedFunction where
  name : String
  position : Option Position
  signature : Except Fault Signature

/-- What a module declares. -/
structure ModuleExtract where
  scope : Scope
  definitions : Table String Definition
  functions : List ExtractedFunction

namespace ModuleExtract

def empty : ModuleExtract :=
  ⟨.empty, [], []⟩

/-- The names of the functions that have a signature. -/
def accepted (x : ModuleExtract) : List String :=
  x.functions.filterMap fun f =>
    match f.signature with
    | .ok s => some s.name
    | .error _ => none

def rejected (x : ModuleExtract) : List (String × Fault) :=
  x.functions.filterMap fun f =>
    match f.signature with
    | .ok _ => none
    | .error fault => some (f.name, fault)

end ModuleExtract

/-- The module a statement stands in and what was extracted before it. -/
structure Extraction where
  module : ModulePath
  isPackage : Bool
  typing : TypingNames
  out : ModuleExtract

namespace Extraction

def names (x : Extraction) : Names :=
  ⟨x.typing, x.out.scope.external⟩

def withScope (x : Extraction) (f : Scope → Scope) : Extraction :=
  { x with out := { x.out with scope := f x.out.scope } }

def define (x : Extraction) (name : String) (d : Definition) : Extraction :=
  { x with out := { x.out with definitions := x.out.definitions.enter name d } }

/-- `import a.b` binds `a`. -/
def importModule (x : Extraction) (i : ImportedName) : Extraction :=
  if TypingNames.isTypingModule i.name then { x with typing := x.typing.importModule i.bound }
  else x.withScope fun s => s.addExternal (i.asName.getD (Dotted.root i.name))

def importAbsolute (x : Extraction) (module : String) (names : List ImportedName) : Extraction :=
  (names.filter fun i => i.name != "*").foldl (fun x i =>
    if TypingNames.isTypingModule module then
      { x with typing := x.typing.importName i.name i.bound }
    else x.withScope fun s => s.addExternal i.bound) x

def importRelative (x : Extraction) (target : ModulePath) (names : List ImportedName) :
    Extraction :=
  names.foldl (fun x i =>
    x.withScope fun s =>
      if i.name == "*" then s.addRelative target else s.bind i.bound ⟨target, i.name⟩) x

/-- Level zero is an absolute import. An import from above the scan root is ignored. -/
def importFrom (x : Extraction) (module : Option String) (level : Nat)
    (names : List ImportedName) : Extraction :=
  if level = 0 then
    match module with
    | some m => if m = "__future__" then x else x.importAbsolute m names
    | none => x
  else
    match x.module.relative x.isPackage level module with
    | some target => x.importRelative target names
    | none => x

/-- Whether the value of an assignment denotes a type. -/
def denotesType (x : Extraction) : Expression → Bool
  | .subscript base _ => (x.typing.generic? base).isSome
  | .name id =>
    x.typing.construct? id == some .any || (Primitive.ofName? id).isSome
      || x.out.definitions.contains id || x.out.scope.bindings.contains id
  | .attribute value attr => x.typing.named? (.attribute value attr) == some .any
  | _ => false

def toDefinition {α : Type} (wrap : α → Definition) : Except Fault α → Definition
  | .ok a => wrap a
  | .error fault => .invalid fault

def assign (x : Extraction) (targets : List Expression) (value : Expression) : Extraction :=
  match targets with
  | [.name id] =>
    if x.denotesType value then x.define id (toDefinition .alias (x.names.lower value)) else x
  | _ => x

/-- The declared totality of a record; the first such keyword counts. -/
def totality (keywords : List ClassKeyword) : Except Fault Bool :=
  match keywords.find? fun k => k.arg == "total" with
  | none => .ok true
  | some k =>
    match k.value with
    | .constant (.bool b) => .ok b
    | e => .error (.unsupportedType ("total=" ++ e.describe) "total must be True or False")

/-- The typed names of a class body, a repeated name with its last type. -/
def recordFields (n : Names) : Table String TypeExpr → List Statement →
    Except Fault (Table String TypeExpr)
  | fields, [] => .ok fields
  | fields, .declare (.name id) hint _ :: rest => do
    let type ← n.lower hint
    recordFields n (fields.enter id type) rest
  | fields, _ :: rest => recordFields n fields rest

def record (n : Names) (keywords : List ClassKeyword) (body : List Statement) :
    Except Fault RecordType := do
  let total ← totality keywords
  let fields ← recordFields n [] body
  .ok ⟨total, fields⟩

/-- Only classes with `TypedDict` among their bases are records. -/
def classDef (x : Extraction) (name : String) (bases : List Expression)
    (keywords : List ClassKeyword) (body : List Statement) : Extraction :=
  if bases.any fun b => x.typing.named? b == some .typedDict then
    x.define name (toDefinition .record (record x.names keywords body))
  else x

def parameter (n : Names) (function : String) (kind : ParameterKind) (a : Argument) :
    Except Fault Parameter :=
  match a.hint with
  | none =>
    .error (.invalidSignature function
      ("missing type annotation for the parameter '" ++ a.name ++ "'"))
  | some hint => do
    let type ← n.lower hint
    .ok ⟨a.name, type, a.hasDefault, kind⟩

/-- The parameter for all further keyword arguments, which has no default. -/
def keywordParameter (n : Names) (function : String) (a : Argument) : Except Fault Parameter :=
  match a.hint with
  | none => .error (.invalidSignature function ("missing type annotation for **" ++ a.name))
  | some hint => do
    let type ← n.lower hint
    .ok ⟨a.name, type, false, .varKeyword⟩

def returnType (n : Names) : Option Expression → Except Fault TypeExpr
  | some e => n.lower e
  | none => .ok .none

/-- Parameters are read from left to right, then the return type, which is `None` if absent. -/
def signature (n : Names) (module : ModulePath) (f : FunctionDef) : Except Fault Signature :=
  if !f.args.positionalOnly.isEmpty then
    .error (.invalidSignature f.name "contains positional-only arguments")
  else
    match f.args.variadic with
    | some a =>
      .error (.invalidSignature f.name
        ("contains a variable number of positional arguments (*" ++ a.name ++ ")"))
    | none => do
      let positional ← f.args.positional.mapM (parameter n f.name .positional)
      let keywordOnly ← f.args.keywordOnly.mapM (parameter n f.name .keywordOnly)
      let keywords ← f.args.keywords.toList.mapM (keywordParameter n f.name)
      let returns ← returnType n f.returns
      .ok ⟨f.name, module, positional ++ keywordOnly ++ keywords, returns⟩

def functionDef (x : Extraction) (f : FunctionDef) : Extraction :=
  let function : ExtractedFunction := ⟨f.name, f.position, signature x.names x.module f⟩
  { x with out := { x.out with functions := x.out.functions ++ [function] } }

def visit (x : Extraction) : Statement → Extraction
  | .importModules names => names.foldl importModule x
  | .importFrom module level names => x.importFrom module level.toNat names
  | .assign targets value => x.assign targets value
  | .classDef name bases keywords body => x.classDef name bases keywords body
  | .functionDef f => x.functionDef f
  | .declare .. => x
  | .other => x

end Extraction

/-- What a module declares. A package, unlike other modules, is its own package. -/
def SyntaxTree.extract (t : SyntaxTree) (module : ModulePath) (isPackage : Bool) : ModuleExtract :=
  (t.body.foldl Extraction.visit ⟨module, isPackage, .empty, .empty⟩).out

end CallSchema
