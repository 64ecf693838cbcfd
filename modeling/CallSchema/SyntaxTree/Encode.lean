import CallSchema.Json.Basic
import CallSchema.SyntaxTree.Basic
import CallSchema.SyntaxTree.Kind

/-! # Syntax trees as documents

The JSON document of a syntax tree. Each node is an object with its kind in front; absent options,
empty argument lists and defaults that are not there are left out.
-/

namespace CallSchema

/-- A member that is only written if there is a value. -/
def optionalMember (key : String) : Option Json → List (String × Json)
  | some v => [(key, v)]
  | none => []

def optionalList (key : String) : List Json → List (String × Json)
  | [] => []
  | vs => [(key, .arr vs)]

def Constant.toJson : Constant → Json
  | .none => .str "none"
  | .bool b => .obj [("bool", .bool b)]
  | .int i => .obj [("int", .int i.toInt)]
  | .float x => .obj [("float", .ofBinary64 x)]
  | .str s => .obj [("str", .str s)]
  | .bytes s => .obj [("bytes", .str s)]
  | .complex s => .obj [("complex", .str s)]
  | .ellipsis => .str "ellipsis"

def kindMember (label : String) : String × Json :=
  ("kind", .str label)

mutual

def Expression.toJson : Expression → Json
  | .name id => .obj [kindMember ExpressionKind.name.label, ("id", .str id)]
  | .attribute value attr =>
    .obj [kindMember ExpressionKind.attribute.label, ("value", value.toJson), ("attr", .str attr)]
  | .subscript value slice =>
    .obj [kindMember ExpressionKind.subscript.label, ("value", value.toJson),
      ("slice", slice.toJson)]
  | .tuple elements =>
    .obj [kindMember ExpressionKind.tuple.label, ("elts", .arr (Expression.listToJson elements))]
  | .constant value => .obj [kindMember ExpressionKind.constant.label, ("value", value.toJson)]
  | .other => .obj [kindMember "other"]

def Expression.listToJson : List Expression → List Json
  | [] => []
  | e :: es => e.toJson :: Expression.listToJson es

end

def ImportedName.toJson (i : ImportedName) : Json :=
  .obj (("name", .str i.name) :: optionalMember "asname" (i.asName.map .str))

def ClassKeyword.toJson (k : ClassKeyword) : Json :=
  .obj [("arg", .str k.arg), ("value", k.value.toJson)]

def Argument.toJson (a : Argument) : Json :=
  .obj (("name", .str a.name) :: (optionalMember "annotation" (a.hint.map Expression.toJson)
    ++ if a.hasDefault then [("has_default", .bool true)] else []))

def Arguments.toJson (a : Arguments) : Json :=
  .obj (optionalList "posonlyargs" (a.positionalOnly.map Argument.toJson)
    ++ optionalList "args" (a.positional.map Argument.toJson)
    ++ optionalMember "vararg" (a.variadic.map Argument.toJson)
    ++ optionalList "kwonlyargs" (a.keywordOnly.map Argument.toJson)
    ++ optionalMember "kwarg" (a.keywords.map Argument.toJson))

def wordJson (n : UInt32) : Json :=
  .int n.toNat

def FunctionDef.members (f : FunctionDef) : List (String × Json) :=
  ("name", .str f.name) :: ("args", f.args.toJson) ::
    (optionalMember "returns" (f.returns.map Expression.toJson)
      ++ optionalMember "lineno" (f.line.map wordJson)
      ++ optionalMember "col_offset" (f.column.map wordJson))

mutual

def Statement.toJson : Statement → Json
  | .importModules names =>
    .obj [kindMember StatementKind.importModules.label,
      ("names", .arr (names.map ImportedName.toJson))]
  | .importFrom module level names =>
    .obj (kindMember StatementKind.importFrom.label :: (optionalMember "module" (module.map .str)
      ++ [("level", wordJson level), ("names", .arr (names.map ImportedName.toJson))]))
  | .assign targets value =>
    .obj [kindMember StatementKind.assign.label, ("targets", .arr (Expression.listToJson targets)),
      ("value", value.toJson)]
  | .declare target hint value =>
    .obj (kindMember StatementKind.declare.label :: ("target", target.toJson) ::
      ("annotation", hint.toJson) :: optionalMember "value" (value.map Expression.toJson))
  | .classDef name bases keywords body =>
    .obj [kindMember StatementKind.classDef.label, ("name", .str name),
      ("bases", .arr (Expression.listToJson bases)),
      ("keywords", .arr (keywords.map ClassKeyword.toJson)),
      ("body", .arr (Statement.listToJson body))]
  | .functionDef f => .obj (kindMember StatementKind.functionDef.label :: f.members)
  | .other => .obj [kindMember "other"]

def Statement.listToJson : List Statement → List Json
  | [] => []
  | s :: ss => s.toJson :: Statement.listToJson ss

end

def SyntaxTree.toJson (t : SyntaxTree) : Json :=
  .obj [("body", .arr (Statement.listToJson t.body))]

end CallSchema
