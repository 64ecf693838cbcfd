import CallSchema.Extraction.Basic
import CallSchema.Proofs.Annotations
import CallSchema.SyntaxTree.Build

/-! # Spelling types

A type expression is written down as an annotation with the names that a module has for the typing
constructs. Whichever names these are, qualified, imported or renamed, the annotation stands for the
type expression that it spells.
-/

namespace CallSchema

namespace Separated

variable {sep : Char}

theorem join_cons_append (part next : List Char) (rest : List (List Char)) :
    join sep ((part ++ sep :: next) :: rest) = join sep (part :: next :: rest) := by
  cases rest with
  | nil => rfl
  | cons _ _ => simp [join]

theorem exists_split_of_mem {cs : List Char} (h : sep ∈ cs) :
    ∃ first next rest, split sep cs = first :: next :: rest := by
  induction cs with
  | nil => cases h
  | cons c cs ih =>
    rw [split]
    split
    · obtain ⟨next, rest, hs⟩ := List.exists_cons_of_ne_nil (@split_ne_nil sep cs)
      exact ⟨[], next, rest, by rw [hs]⟩
    · rename_i hc
      obtain ⟨first, next, rest, hs⟩ := ih (by simpa [Ne.symm hc] using h)
      exact ⟨c :: first, next, rest, by rw [hs]⟩

end Separated

theorem Dotted.join_parts (name : String) : join (parts name) = name := by
  simp [join, parts, Function.comp_def, Separated.join_split]

namespace Expression

theorem dottedName_foldl {e : Expression} {base : String} (h : e.dottedName = some base)
    (rest : List String) :
    (rest.foldl Expression.attribute e).dottedName = some (Dotted.join (base :: rest)) := by
  induction rest generalizing e base with
  | nil => simp [h, Dotted.join, Separated.join]
  | cons attr rest ih =>
    have hattr : (Expression.attribute e attr).dottedName = some (base ++ "." ++ attr) := by
      simp [dottedName, h]
    rw [List.foldl_cons, ih hattr]
    simp [Dotted.join, Separated.join_cons_append]

/-- A dotted name is the name of the chain of attributes that it stands for. -/
theorem dottedName_dotted (path : String) : (dotted path).dottedName = some path := by
  unfold dotted
  split
  · rename_i hparts
    simp [Dotted.parts, Separated.split_ne_nil] at hparts
  · rename_i first rest hparts
    rw [dottedName_foldl rfl, ← hparts, Dotted.join_parts]

theorem dotted_of_notMem {path : String} (h : '.' ∉ path.toList) : dotted path = .name path := by
  simp [dotted, Dotted.parts, Separated.split_of_notMem h]

theorem exists_attribute_of_foldl (e : Expression) (attr : String) (rest : List String) :
    ∃ value last, (attr :: rest).foldl Expression.attribute e = .attribute value last := by
  induction rest generalizing e attr with
  | nil => exact ⟨e, attr, rfl⟩
  | cons next rest ih => exact ih (.attribute e attr) next

theorem dotted_of_mem {path : String} (h : '.' ∈ path.toList) :
    ∃ value attr, dotted path = .attribute value attr := by
  obtain ⟨first, next, rest, hs⟩ := Separated.exists_split_of_mem h
  simp only [dotted, Dotted.parts, hs, List.map_cons]
  exact exists_attribute_of_foldl _ _ _

/-- What stands between the brackets are the given arguments, unless one is a tuple itself. -/
theorem exists_slice (base : Expression) {args : List Expression}
    (h : ∀ arg ∈ args, arg.arguments = [arg]) :
    ∃ slice, applied base args = .subscript base slice ∧ slice.arguments = args := by
  match args with
  | [] => exact ⟨.tuple [], rfl, rfl⟩
  | [arg] => exact ⟨arg, rfl, h arg List.mem_cons_self⟩
  | first :: second :: rest => exact ⟨.tuple (first :: second :: rest), rfl, rfl⟩

end Expression

/-- The constant that a literal is written as. -/
def Literal.toConstant : Literal → Constant
  | .null => .none
  | .bool b => .bool b
  | .int i => .int i
  | .float x => .float x
  | .str s => .str s

namespace LiteralMember

/-- A value is written as a constant; what is no value has no spelling of its own. -/
def spell : LiteralMember → Expression
  | .value v => .constant v.toConstant
  | .invalid _ => .other

theorem ofExpression_spell (v : Literal) : ofExpression (spell (.value v)) = .value v := by
  cases v <;> rfl

end LiteralMember

namespace TypingNames

/-- Whether the name means something of a typing module, with or without a JSON form. -/
def Knows (t : TypingNames) (name : String) : Prop :=
  (t.construct? name).isSome = true ∨ t.isUnsupported name = true

end TypingNames

/-- A choice of a dotted name for each construct that annotations are made of, among the names that
the module has for it. -/
structure Spelling (n : Names) where
  name : Construct → String
  means : ∀ c, c ≠ .typedDict → n.typing.construct? (name c) = some c

namespace TypeExpr

mutual

/-- The annotation that spells a type expression. -/
def spell {n : Names} (s : Spelling n) : TypeExpr → Expression
  | .primitive p => .dotted p.name
  | .none => .noneConstant
  | .any => .dotted (s.name .any)
  | .list item => .applied (.dotted (s.name .list)) [spell s item]
  | .dict key value => .applied (.dotted (s.name .dict)) [spell s key, spell s value]
  | .optional inner => .applied (.dotted (s.name .optional)) [spell s inner]
  | .union members => .applied (.dotted (s.name .union)) (spellAll s members)
  | .literal members => .applied (.dotted (s.name .literal)) (members.map LiteralMember.spell)
  | .reference name => .dotted name
  | .external name => .dotted name
  | .unsupported name => .dotted name

def spellAll {n : Names} (s : Spelling n) : List TypeExpr → List Expression
  | [] => []
  | t :: ts => spell s t :: spellAll s ts

end

/-- Type expressions whose names mean in a module what they stand for. -/
inductive Spellable (n : Names) : TypeExpr → Prop
  | primitive {p : Primitive} : ¬ n.typing.Knows p.name → Spellable n (.primitive p)
  | none : Spellable n .none
  | any : Spellable n .any
  | list {item : TypeExpr} : Spellable n item → Spellable n (.list item)
  | dict {key value : TypeExpr} : Spellable n key → Spellable n value →
      Spellable n (.dict key value)
  | optional {inner : TypeExpr} : Spellable n inner → Spellable n (.optional inner)
  | union {members : List TypeExpr} : members ≠ [] → (∀ t ∈ members, Spellable n t) →
      Spellable n (.union members)
  | literal {values : List Literal} : values ≠ [] → Spellable n (.literal (values.map .value))
  | reference {name : String} : '.' ∉ name.toList → Primitive.ofName? name = Option.none →
      name ∉ nonJsonBuiltins → ¬ n.typing.Knows name → Spellable n (.reference name)
  | external {name : String} : '.' ∈ name.toList → Dotted.root name ∈ n.external →
      ¬ n.typing.Knows name → Spellable n (.external name)

variable {n : Names} {s : Spelling n}

theorem spellAll_eq (ts : List TypeExpr) : spellAll s ts = ts.map (spell s) := by
  induction ts with
  | nil => rfl
  | cons t ts ih => rw [spellAll, ih, List.map_cons]

end TypeExpr

namespace Expression

theorem arguments_dotted (path : String) : (dotted path).arguments = [dotted path] := by
  by_cases h : '.' ∈ path.toList
  · obtain ⟨value, attr, he⟩ := dotted_of_mem h
    rw [he]
    rfl
  · rw [dotted_of_notMem h]
    rfl

theorem arguments_applied (base : Expression) (args : List Expression) :
    (applied base args).arguments = [applied base args] := by
  unfold applied
  split <;> rfl

end Expression

/-- An annotation that spells a type is one argument. -/
theorem TypeExpr.arguments_spell {n : Names} (s : Spelling n) (t : TypeExpr) :
    (t.spell s).arguments = [t.spell s] := by
  cases t <;> rw [spell]
  case none => rfl
  case list | dict | optional | union | literal => exact Expression.arguments_applied _ _
  case primitive | any | reference | external | unsupported => exact Expression.arguments_dotted _

namespace Construct

variable {args : List (Expression × Except Fault TypeExpr)}

theorem apply_union (whole : String) (h : args ≠ []) :
    union.apply whole args = (args.mapM Prod.snd).map .union := by
  cases args with
  | nil => exact absurd rfl h
  | cons _ _ => rfl

theorem apply_literal (whole : String) (h : args ≠ []) :
    literal.apply whole args = .ok (.literal (args.map fun a => .ofExpression a.1)) := by
  cases args with
  | nil => exact absurd rfl h
  | cons _ _ => rfl

end Construct

namespace Names

variable {n : Names}

theorem typingName?_of_not_knows {name : String} (h : ¬ n.typing.Knows name) :
    n.typingName? name = none := by
  obtain ⟨hconstruct, hunsupported⟩ := not_or.mp h
  rw [typingName?, Option.not_isSome_iff_eq_none.mp hconstruct]
  simp [hunsupported]

theorem lower_dotted_of_notMem {path : String} (h : '.' ∉ path.toList) :
    n.lower (.dotted path) = n.lowerName path := by
  rw [Expression.dotted_of_notMem h, lower]

theorem lower_dotted_of_mem {path : String} (h : '.' ∈ path.toList) :
    n.lower (.dotted path) = n.lowerAttribute (.dotted path) := by
  obtain ⟨value, attr, he⟩ := Expression.dotted_of_mem h
  rw [he, lower]

/-- A name of a typing module comes first, bare or qualified. -/
theorem lower_dotted_of_typingName? {path : String} {result : Except Fault TypeExpr}
    (h : n.typingName? path = some result) : n.lower (.dotted path) = result := by
  by_cases hdot : '.' ∈ path.toList
  · rw [lower_dotted_of_mem hdot, lowerAttribute, Expression.dottedName_dotted]
    simp only [h]
  · rw [lower_dotted_of_notMem hdot, lowerName, h]

/-- A construct under its chosen name is applied to the arguments that are written for it. -/
theorem lower_applied (s : Spelling n) {c : Construct} (hc : c.isGeneric = true)
    (args : List Expression) (hargs : ∀ arg ∈ args, arg.arguments = [arg]) :
    ∃ whole, n.lower (.applied (.dotted (s.name c)) args) =
      c.apply whole (args.map fun e => (e, n.lower e)) := by
  obtain ⟨slice, happlied, hslice⟩ := Expression.exists_slice (.dotted (s.name c)) hargs
  have hne : c ≠ .typedDict := by
    rintro rfl
    cases hc
  have hgeneric : n.typing.generic? (.dotted (s.name c)) = some c := by
    simp [TypingNames.generic?, TypingNames.named?, Expression.dottedName_dotted, s.means c hne, hc]
  exact ⟨_, by rw [happlied, lower_subscript, hgeneric, hslice]⟩

/-- Arguments that spell types count as these types. -/
theorem lower_applied_spell (s : Spelling n) {c : Construct} (hc : c.isGeneric = true)
    (ts : List TypeExpr) (h : ∀ t ∈ ts, n.lower (t.spell s) = .ok t) :
    ∃ whole, n.lower (.applied (.dotted (s.name c)) (ts.map (TypeExpr.spell s))) =
      c.apply whole (ts.map fun t => (t.spell s, .ok t)) := by
  have hargs : ∀ arg ∈ ts.map (TypeExpr.spell s), arg.arguments = [arg] := by
    intro arg harg
    obtain ⟨t, -, rfl⟩ := List.mem_map.mp harg
    exact t.arguments_spell s
  obtain ⟨whole, hlower⟩ := lower_applied s hc _ hargs
  refine ⟨whole, ?_⟩
  rw [hlower, List.map_map]
  exact congrArg (c.apply whole) (List.map_congr_left fun t ht => congrArg _ (h t ht))

theorem lower_primitive {p : Primitive} (h : ¬ n.typing.Knows p.name) :
    n.lower (.dotted p.name) = .ok (.primitive p) := by
  have hdot : '.' ∉ p.name.toList := by cases p <;> decide
  have hname : Primitive.ofName? p.name = some p := by cases p <;> decide
  rw [lower_dotted_of_notMem hdot, lowerName, typingName?_of_not_knows h]
  simp only [hname]

theorem lower_reference {name : String} (hdot : '.' ∉ name.toList)
    (hprimitive : Primitive.ofName? name = none) (hbuiltin : name ∉ nonJsonBuiltins)
    (hknown : ¬ n.typing.Knows name) : n.lower (.dotted name) = .ok (.reference name) := by
  rw [lower_dotted_of_notMem hdot, lowerName, typingName?_of_not_knows hknown]
  simp only [hprimitive, if_neg hbuiltin]

theorem lower_external {name : String} (hdot : '.' ∈ name.toList)
    (hroot : Dotted.root name ∈ n.external) (hknown : ¬ n.typing.Knows name) :
    n.lower (.dotted name) = .ok (.external name) := by
  rw [lower_dotted_of_mem hdot, lowerAttribute, Expression.dottedName_dotted]
  simp only [typingName?_of_not_knows hknown, if_pos hroot]

theorem lower_any (s : Spelling n) : n.lower (.dotted (s.name .any)) = .ok .any := by
  apply lower_dotted_of_typingName?
  rw [typingName?, s.means .any (by decide)]

theorem lower_union (s : Spelling n) {members : List TypeExpr} (hne : members ≠ [])
    (h : ∀ t ∈ members, n.lower (t.spell s) = .ok t) :
    n.lower (.applied (.dotted (s.name .union)) (members.map (TypeExpr.spell s))) =
      .ok (.union members) := by
  obtain ⟨whole, hlower⟩ := lower_applied_spell s (c := .union) rfl members h
  have hmembers : (members.map fun t => (t.spell s, Except.ok t)).mapM Prod.snd =
      (.ok members : Except Fault (List TypeExpr)) := by
    rw [List.mapM_map, mapM_eq_ok_iff, List.forall₂_same]
    exact fun _ _ => rfl
  rw [hlower, Construct.apply_union whole (by simpa using hne), hmembers]
  rfl

theorem lower_literal (s : Spelling n) {values : List Literal} (hne : values ≠ []) :
    n.lower (.applied (.dotted (s.name .literal))
      ((values.map LiteralMember.value).map LiteralMember.spell)) =
        .ok (.literal (values.map .value)) := by
  rw [List.map_map]
  have hargs : ∀ arg ∈ values.map (LiteralMember.spell ∘ .value), arg.arguments = [arg] := by
    simp [LiteralMember.spell, Expression.arguments]
  obtain ⟨whole, hlower⟩ := lower_applied s (c := .literal) rfl _ hargs
  rw [hlower, Construct.apply_literal whole (by simpa using hne), List.map_map, List.map_map]
  refine congrArg (fun ms => Except.ok (TypeExpr.literal ms)) (List.map_congr_left fun v _ => ?_)
  exact LiteralMember.ofExpression_spell v

/-- Lowering undoes spelling: an annotation stands for the type expression that it spells, whichever
names of the module it is spelled with. -/
theorem lower_spell (n : Names) (s : Spelling n) (t : TypeExpr) (ht : t.Spellable n) :
    n.lower (t.spell s) = .ok t := by
  induction ht with
  | primitive h => rw [TypeExpr.spell, lower_primitive h]
  | none => rw [TypeExpr.spell, Expression.noneConstant, lower]
  | any => rw [TypeExpr.spell, lower_any]
  | reference hdot hprimitive hbuiltin hknown =>
    rw [TypeExpr.spell, lower_reference hdot hprimitive hbuiltin hknown]
  | external hdot hroot hknown => rw [TypeExpr.spell, lower_external hdot hroot hknown]
  | @list item _ ih =>
    obtain ⟨whole, hlower⟩ := lower_applied_spell s (c := .list) rfl [item] (by simpa using ih)
    rw [TypeExpr.spell]
    exact hlower
  | @optional inner _ ih =>
    obtain ⟨whole, hlower⟩ := lower_applied_spell s (c := .optional) rfl [inner] (by simpa using ih)
    rw [TypeExpr.spell]
    exact hlower
  | @dict key value _ _ ihk ihv =>
    obtain ⟨whole, hlower⟩ := lower_applied_spell s (c := .dict) rfl [key, value]
      (by simpa using ⟨ihk, ihv⟩)
    rw [TypeExpr.spell]
    exact hlower
  | union hne _ ih => rw [TypeExpr.spell, TypeExpr.spellAll_eq, lower_union s hne ih]
  | literal hne => rw [TypeExpr.spell, lower_literal s hne]

end Names

/-- The names of a module after imports of every kind. -/
def importedNames : Names :=
  ([Statement.importModule "typing", .importModules [.aliased "typing_extensions" "t"],
    .importFrom (some "typing") 0 [.plain "Any", .aliased "List" "Seq", .plain "Callable"],
    .importModule "numpy.typing"].foldl Extraction.visit ⟨⟨"service"⟩, false, .empty, .empty⟩).names

def mixedSpelling : Spelling importedNames where
  name
    | .any => "Any"
    | .dict => "t.Dict"
    | .list => "Seq"
    | .literal => "typing.Literal"
    | .optional => "t.Optional"
    | .union => "typing.Union"
    | .typedDict => "t.TypedDict"
  means c _ := by cases c <;> rfl

def portTable : TypeExpr :=
  .dict (.primitive .str) (.optional (.union [.primitive .int, .list .any,
    .literal ([.str "auto", .int 0, .null].map .value), .reference "Port",
    .external "numpy.uint16"]))

example : (portTable.spell mixedSpelling).describe =
    "t.Dict[str, t.Optional[typing.Union[int, Seq[Any], " ++
      "typing.Literal['auto', 0, None], Port, numpy.uint16]]]" := by
  decide +kernel

theorem spellable_portTable : portTable.Spellable importedNames := by
  have hknows (name : String) (hconstruct : importedNames.typing.construct? name = none)
      (hunsupported : importedNames.typing.isUnsupported name = false) :
      ¬ importedNames.typing.Knows name := by
    simp [TypingNames.Knows, hconstruct, hunsupported]
  refine .dict (.primitive (hknows "str" rfl rfl)) (.optional (.union (by simp) ?_))
  simp only [List.forall_mem_cons]
  refine ⟨.primitive (hknows "int" rfl rfl), .list .any, .literal (by simp),
    .reference (by decide) rfl (by decide) (hknows "Port" rfl rfl),
    .external (by decide) (by decide) (hknows "numpy.uint16" rfl rfl), by simp⟩

theorem Names.lower_spell_portTable :
    portTable.Spellable importedNames ∧
      importedNames.lower (portTable.spell mixedSpelling) = .ok portTable :=
  ⟨spellable_portTable, lower_spell importedNames mixedSpelling portTable spellable_portTable⟩

end CallSchema
