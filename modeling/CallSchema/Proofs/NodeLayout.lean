import Mathlib.Data.List.Perm.Basic
import CallSchema.SyntaxTree.Decode

/-! # The layout of nodes

What the decoder expects at each place of a document. Which fields a node has follows from what it
stands for and, if it tells its kind, from that kind. Two values agree at a place if the decoder
makes the same of them there.
-/

namespace CallSchema

open Decode

/-- What an object or an array of a document stands for. -/
inductive Role where
  | module
  | statement (nested : Bool)
  | expression
  | importedName
  | keyword
  | arguments
  | argument

/-- What the decoder expects at a place of a document: a node, a list of nodes, or a value none of
whose parts is a node. -/
inductive Place where
  | plain
  | node (role : Role)
  | nodes (role : Role)

def ExpressionKind.fields : ExpressionKind → Table String Place
  | .name => [("id", .plain)]
  | .attribute => [("value", .node .expression), ("attr", .plain)]
  | .subscript => [("value", .node .expression), ("slice", .node .expression)]
  | .tuple => [("elts", .nodes .expression)]
  | .constant => [("value", .plain)]

def StatementKind.fields : StatementKind → Table String Place
  | .importModules => [("names", .nodes .importedName)]
  | .importFrom => [("module", .plain), ("level", .plain), ("names", .nodes .importedName)]
  | .assign => [("targets", .nodes .expression), ("value", .node .expression)]
  | .declare =>
    [("target", .node .expression), ("annotation", .node .expression),
      ("value", .node .expression)]
  | .classDef =>
    [("name", .plain), ("bases", .nodes .expression), ("keywords", .nodes .keyword),
      ("body", .nodes (.statement true))]
  | .functionDef =>
    [("name", .plain), ("args", .node .arguments), ("returns", .node .expression),
      ("lineno", .plain), ("col_offset", .plain)]

section Kinds

variable {κ : Type} (kinds : List κ) (label : κ → String) (nested : Bool)
  (fields : κ → Table String Place)

/-- A node of another kind has no fields. -/
def kindFields : Option κ → Table String Place
  | some k => fields k
  | none => []

/-- The members that matter in a node that tells its kind, in the order of its array form. -/
def kindLayout (v : Json) : Table String Place :=
  ("kind", .plain) ::
    match tagged? kinds label nested v with
    | some (k, _) => kindFields fields k
    | none => []

end Kinds

namespace Role

/-- The members that matter in a node, in the order of its array form. -/
def layout : Role → Json → Table String Place
  | .module, _ => [("body", .nodes (.statement false))]
  | .statement nested, v =>
    kindLayout StatementKind.all StatementKind.label nested StatementKind.fields v
  | .expression, v =>
    kindLayout ExpressionKind.all ExpressionKind.label true ExpressionKind.fields v
  | .importedName, _ => [("name", .plain), ("asname", .plain)]
  | .keyword, _ => [("arg", .plain), ("value", .node .expression)]
  | .arguments, _ =>
    [("posonlyargs", .nodes .argument), ("args", .nodes .argument), ("vararg", .node .argument),
      ("kwonlyargs", .nodes .argument), ("kwarg", .node .argument)]
  | .argument, _ => [("name", .plain), ("annotation", .node .expression), ("has_default", .plain)]

def Node : Role → Type
  | .module => SyntaxTree
  | .statement _ => Statement
  | .expression => Expression
  | .importedName => ImportedName
  | .keyword => ClassKeyword
  | .arguments => Arguments
  | .argument => Argument

def decode? : (role : Role) → Json → Option role.Node
  | .module, v => SyntaxTree.ofJson? v
  | .statement nested, v => statement? v.depth nested v
  | .expression, v => nestedExpression? v
  | .importedName, v => importedName? v
  | .keyword, v => keyword? v
  | .arguments, v => arguments? v
  | .argument, v => argument? v

end Role

/-- What is expected under a key; other keys do not matter. -/
def placeUnder (layout : Table String Place) (key : String) : Place :=
  (layout.find? key).getD .plain

def placeAt (layout : Table String Place) (i : Nat) : Place :=
  (layout[i]?.map Prod.snd).getD .plain

namespace Place

/-- What is expected under a key of an object at the place. -/
def member : Place → Json → String → Place
  | .node role, v, key => placeUnder (role.layout v) key
  | _, _, _ => .plain

/-- What is expected at an index of an array at the place. -/
def item : Place → Json → Nat → Place
  | .node role, v, i => placeAt (role.layout v) i
  | .nodes role, _, _ => .node role
  | .plain, _, _ => .plain

end Place

/-! ## Values without nodes -/

/-- Values that no reader of a value without nodes tells apart. -/
inductive Alike : Json → Json → Prop
  | refl (v : Json) : Alike v v
  | arr (vs ws : List Json) : Alike (.arr vs) (.arr ws)
  | obj {ms ms' : List (String × Json)} (hunit : isUnit (.obj ms) = isUnit (.obj ms'))
      (hconstant : constant? (.obj ms) = constant? (.obj ms')) : Alike (.obj ms) (.obj ms')

namespace Alike

variable {v w : Json}

theorem null_iff (h : Alike v w) : v = .null ↔ w = .null := by
  cases h <;> simp

theorem string? (h : Alike v w) : string? v = string? w := by
  cases h <;> rfl

theorem bool? (h : Alike v w) : bool? v = bool? w := by
  cases h <;> rfl

theorem word? (h : Alike v w) : word? v = word? w := by
  cases h <;> rfl

theorem int? (h : Alike v w) : int? v = int? w := by
  cases h <;> rfl

theorem float? (h : Alike v w) : float? v = float? w := by
  cases h <;> rfl

theorem kind? {κ : Type} {kinds : List κ} {label : κ → String} {nested : Bool} (h : Alike v w) :
    kind? kinds label nested v = kind? kinds label nested w := by
  cases h <;> rfl

theorem isUnit (h : Alike v w) : isUnit v = isUnit w := by
  cases h with
  | refl | arr => rfl
  | obj hunit => exact hunit

theorem constant? (h : Alike v w) : constant? v = constant? w := by
  cases h with
  | refl | arr => rfl
  | obj _ hconstant => exact hconstant

theorem constant?_of_length {ms : List (String × Json)} (h : ms.length ≠ 1) :
    Decode.constant? (.obj ms) = none := by
  match ms with
  | [] | _ :: _ :: _ => rfl
  | [_] => exact absurd rfl h

theorem of_perm {ms ms' : List (String × Json)} (h : ms.Perm ms') :
    Alike (.obj ms) (.obj ms') := by
  by_cases hone : ms.length = 1
  · obtain ⟨m, rfl⟩ := List.length_eq_one_iff.mp hone
    rw [List.singleton_perm.mp h]
    exact .refl _
  · refine .obj ?_ ?_
    · cases ms with
      | nil => rw [List.nil_perm.mp h]
      | cons m ms =>
        cases ms' with
        | nil => cases List.perm_nil.mp h
        | cons m' ms' => rfl
    · rw [constant?_of_length hone, constant?_of_length (h.length_eq ▸ hone)]

/-- A constant is an object with one member, and what is alike under its key makes it alike. -/
theorem of_member {before after : List (String × Json)} {key : String} (h : Alike v w) :
    Alike (.obj (before ++ (key, v) :: after)) (.obj (before ++ (key, w) :: after)) := by
  refine .obj ?_ ?_
  · cases before <;> rfl
  · by_cases hone : before = [] ∧ after = []
    · obtain ⟨rfl, rfl⟩ := hone
      simp only [List.nil_append, Decode.constant?, h.isUnit, h.bool?, h.int?, h.float?, h.string?]
    · have hlength : ∀ x : Json, (before ++ (key, x) :: after).length ≠ 1 := by
        rw [← List.length_eq_zero_iff, ← List.length_eq_zero_iff] at hone
        intro x
        simp only [List.length_append, List.length_cons]
        omega
      rw [constant?_of_length (hlength v), constant?_of_length (hlength w)]

end Alike

/-- Values that the decoder does not tell apart at a place. -/
def Agree : Place → Json → Json → Prop
  | .plain, v, w => Alike v w
  | .node role, v, w => (v = .null ↔ w = .null) ∧ role.decode? v = role.decode? w
  | .nodes role, v, w => (v = .null ↔ w = .null) ∧ list? role.decode? v = list? role.decode? w

namespace Agree

variable {p : Place} {v w : Json}

theorem refl (p : Place) (v : Json) : Agree p v v := by
  cases p with
  | plain => exact Alike.refl v
  | node role | nodes role => exact ⟨Iff.rfl, rfl⟩

theorem null_iff (h : Agree p v w) : v = .null ↔ w = .null := by
  cases p with
  | plain => exact Alike.null_iff h
  | node role | nodes role => exact h.1

theorem expression (h : Agree (.node .expression) v w) :
    nestedExpression? v = nestedExpression? w :=
  h.2

theorem expressions (h : Agree (.nodes .expression) v w) :
    list? nestedExpression? v = list? nestedExpression? w :=
  h.2

theorem importedNames (h : Agree (.nodes .importedName) v w) :
    list? importedName? v = list? importedName? w :=
  h.2

theorem keywords (h : Agree (.nodes .keyword) v w) : list? keyword? v = list? keyword? w :=
  h.2

theorem argument (h : Agree (.node .argument) v w) : argument? v = argument? w :=
  h.2

theorem argumentList (h : Agree (.nodes .argument) v w) : list? argument? v = list? argument? w :=
  h.2

theorem arguments (h : Agree (.node .arguments) v w) : arguments? v = arguments? w :=
  h.2

end Agree

end CallSchema
