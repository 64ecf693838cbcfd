import CallSchema.Proofs.Constants
import CallSchema.Proofs.JsonText
import CallSchema.Proofs.NodeFields

/-! # Trees and their documents

Reading a node inverts writing it, by the recursion of the reader on the depth of the document:
every node is read by its own kind, and what it leaves out is what its reader fills in. Only doubles
that are not finite have no value in a document.
-/

namespace CallSchema

/-! ## Expressions -/

theorem Expression.listToJson_eq (es : List Expression) :
    Expression.listToJson es = es.map Expression.toJson := by
  induction es with
  | nil => rfl
  | cons e es ih => rw [Expression.listToJson, ih, List.map_cons]

theorem Expression.toJson_ne_null (e : Expression) : e.toJson ≠ .null := by
  cases e <;> simp [Expression.toJson]

/-- A property that all doubles among some constants have. -/
def EveryFloat (p : Binary64 → Prop) (cs : List Constant) : Prop :=
  ∀ x, .float x ∈ cs → p x

abbrev FiniteFloats (cs : List Constant) : Prop :=
  EveryFloat (fun x => x.isFinite = true) cs

namespace EveryFloat

variable {p : Binary64 → Prop}

theorem mono {cs ds : List Constant} (h : EveryFloat p cs) (hsub : ds ⊆ cs) : EveryFloat p ds :=
  fun x hx => h x (hsub hx)

theorem of_mem {es : List Expression} {e : Expression}
    (h : EveryFloat p (Expression.constantsAll es)) (he : e ∈ es) : EveryFloat p e.constants :=
  h.mono fun _ hc => Expression.mem_constantsAll.mpr ⟨e, he, hc⟩

end EveryFloat

namespace Decode

theorem constant?_toJson {c : Constant} (h : FiniteFloats [c]) : constant? c.toJson = some c := by
  cases c with
  | int i =>
    have hrange : -9223372036854775808 ≤ i.toInt ∧ i.toInt < 9223372036854775808 :=
      ⟨i.le_toInt, i.toInt_lt⟩
    simp [Constant.toJson, constant?, int?, hrange]
  | float x =>
    have hx : x.isFinite = true := h x List.mem_cons_self
    simp [Constant.toJson, Json.ofBinary64, hx, constant?, float?]
  | _ => rfl

theorem find?_label_expression (k : ExpressionKind) :
    ExpressionKind.all.find? (fun k' => k'.label == k.label) = some k := by
  cases k <;> decide

theorem expression?_toJson {e : Expression} {depth : Nat} (nested : Bool)
    (hd : e.toJson.depth ≤ depth) (hf : FiniteFloats e.constants) :
    expression? depth nested e.toJson = some e := by
  -- on the depth, as the reader: what is nested in a node has a document one level less deep
  induction depth generalizing e nested with
  | zero => cases e <;> simp [Expression.toJson, Json.depth] at hd
  | succ depth ih =>
    cases e with
    | name id =>
      simp [Expression.toJson, expression?, tagged?_obj, fields?_obj, find?_label_expression,
        Table.keys, Table.find?, required?, string?]
    | «attribute» value attr =>
      have hvalue := ih true (Json.depth_member hd (.tail _ (.head _))) hf
      simp [Expression.toJson, expression?, tagged?_obj, fields?_obj, find?_label_expression,
        Table.keys, Table.find?, required?, string?, hvalue]
    | subscript value slice =>
      have hvalue := ih true (Json.depth_member hd (.tail _ (.head _)))
        (hf.mono (List.subset_append_left _ _))
      have hslice := ih true (Json.depth_member hd (.tail _ (.tail _ (.head _))))
        (hf.mono (List.subset_append_right _ _))
      simp [Expression.toJson, expression?, tagged?_obj, fields?_obj, find?_label_expression,
        Table.keys, Table.find?, required?, hvalue, hslice]
    | tuple elements =>
      rw [Expression.toJson, Expression.listToJson_eq] at hd ⊢
      have helements : list? (expression? depth true) (.arr (elements.map Expression.toJson)) =
          some elements := by
        refine list?_map fun e he => ih true ?_ ?_
        · have helts := Json.depth_member hd (.tail _ (.head _))
          exact Json.depth_item (Nat.le_succ_of_le helts) (List.mem_map_of_mem he)
        · exact EveryFloat.of_mem hf he
      simp [expression?, tagged?_obj, fields?_obj, find?_label_expression,
        Table.keys, Table.find?, required?, helements]
    | constant value =>
      simp [Expression.toJson, expression?, tagged?_obj, fields?_obj, find?_label_expression,
        Table.keys, Table.find?, required?, constant?_toJson hf]
    | other => rfl

theorem nestedExpression?_toJson {e : Expression} (hf : FiniteFloats e.constants) :
    nestedExpression? e.toJson = some e :=
  expression?_toJson true le_rfl hf

end Decode

/-! ## Definitions -/

namespace ImportedName

def fields (i : ImportedName) : List (String × Option Json) :=
  [("name", some (.str i.name)), ("asname", i.asName.map .str)]

theorem toJson_eq (i : ImportedName) : i.toJson = .obj (givenMembers i.fields) := by
  rw [toJson, optionalMember_eq]
  rfl

end ImportedName

namespace Argument

def fields (a : Argument) : List (String × Option Json) :=
  [("name", some (.str a.name)), ("annotation", a.hint.map Expression.toJson),
    ("has_default", if a.hasDefault then some (.bool true) else none)]

theorem toJson_eq (a : Argument) : a.toJson = .obj (givenMembers a.fields) := by
  obtain ⟨name, hint, hasDefault⟩ := a
  cases hint <;> cases hasDefault <;> rfl

theorem toJson_ne_null (a : Argument) : a.toJson ≠ .null := by
  simp [toJson]

end Argument

namespace Arguments

def fields (a : Arguments) : List (String × Option Json) :=
  [("posonlyargs", nonemptyArray (a.positionalOnly.map Argument.toJson)),
    ("args", nonemptyArray (a.positional.map Argument.toJson)),
    ("vararg", a.variadic.map Argument.toJson),
    ("kwonlyargs", nonemptyArray (a.keywordOnly.map Argument.toJson)),
    ("kwarg", a.keywords.map Argument.toJson)]

theorem toJson_eq (a : Arguments) : a.toJson = .obj (givenMembers a.fields) := by
  simp only [toJson, optionalList_eq, optionalMember_eq, ← givenMembers_append]
  rfl

end Arguments

namespace FunctionDef

def fields (f : FunctionDef) : List (String × Option Json) :=
  [("name", some (.str f.name)), ("args", some f.args.toJson),
    ("returns", f.returns.map Expression.toJson), ("lineno", f.line.map wordJson),
    ("col_offset", f.column.map wordJson)]

theorem members_eq (f : FunctionDef) : f.members = givenMembers f.fields := by
  simp only [members, optionalMember_eq, ← givenMembers_append]
  rfl

end FunctionDef

namespace Decode

theorem word?_wordJson (w : UInt32) : word? (wordJson w) = some w := by
  have hw := w.toNat_lt
  simp only [wordJson, word?]
  rw [if_pos (by omega)]
  simp

theorem wordJson_ne_null (w : UInt32) : wordJson w ≠ .null := by
  simp [wordJson]

theorem importedName?_toJson (i : ImportedName) : importedName? i.toJson = some i := by
  have hfields : fields? ["name", "asname"] i.toJson = some (givenMembers i.fields) := by
    rw [i.toJson_eq]
    exact fields?_givenMembers (by decide) rfl
  have hn : (i.fields.map Prod.fst).Nodup := by
    simp [ImportedName.fields]
  have hname : required? string? (givenMembers i.fields) "name" = some i.name :=
    required?_of_find? (find?_givenMembers hn) rfl
  have hasName : optional? string? (givenMembers i.fields) "asname" = some i.asName :=
    optional?_of_find? (find?_givenMembers hn) (by simp) fun _ _ => rfl
  simp [importedName?, hfields, hname, hasName]

theorem keyword?_toJson {k : ClassKeyword} (hf : FiniteFloats k.value.constants) :
    keyword? k.toJson = some k := by
  simp [keyword?, ClassKeyword.toJson, fields?_obj, Table.keys, Table.find?, required?, string?,
    nestedExpression?_toJson hf]

theorem argument?_toJson {a : Argument} (hf : ∀ e ∈ a.hint, FiniteFloats e.constants) :
    argument? a.toJson = some a := by
  have hfields : fields? ["name", "annotation", "has_default"] a.toJson =
      some (givenMembers a.fields) := by
    rw [a.toJson_eq]
    exact fields?_givenMembers (by decide) rfl
  have hn : (a.fields.map Prod.fst).Nodup := by
    simp [Argument.fields]
  have hname : required? string? (givenMembers a.fields) "name" = some a.name :=
    required?_of_find? (find?_givenMembers hn) rfl
  have hhint : optional? nestedExpression? (givenMembers a.fields) "annotation" = some a.hint :=
    optional?_of_find? (find?_givenMembers hn) Expression.toJson_ne_null
      fun e he => nestedExpression?_toJson (hf e he)
  have hdefault : defaulted? bool? false (givenMembers a.fields) "has_default" =
      some a.hasDefault := by
    simp only [defaulted?, find?_givenMembers hn]
    cases h : a.hasDefault <;> simp [Argument.fields, Table.find?, h, bool?]
  simp [argument?, hfields, hname, hhint, hdefault]

theorem arguments?_toJson {a : Arguments}
    (hf : ∀ arg ∈ a.all, ∀ e ∈ arg.hint, FiniteFloats e.constants) :
    arguments? a.toJson = some a := by
  have hfields : fields? ["posonlyargs", "args", "vararg", "kwonlyargs", "kwarg"] a.toJson =
      some (givenMembers a.fields) := by
    rw [a.toJson_eq]
    exact fields?_givenMembers (by decide) rfl
  have hn : (a.fields.map Prod.fst).Nodup := by
    simp [Arguments.fields]
  have hread : ∀ arg ∈ a.all, argument? arg.toJson = some arg :=
    fun arg harg => argument?_toJson (hf arg harg)
  simp only [Arguments.all, List.forall_mem_append, Option.mem_toList] at hread
  obtain ⟨⟨⟨⟨hpositionalOnly, hpositional⟩, hvariadic⟩, hkeywordOnly⟩, hkeywords⟩ := hread
  have hpositionalOnly : defaulted? (list? argument?) [] (givenMembers a.fields) "posonlyargs" =
      some a.positionalOnly :=
    defaultedList?_of_find? (find?_givenMembers hn) hpositionalOnly
  have hpositional : defaulted? (list? argument?) [] (givenMembers a.fields) "args" =
      some a.positional :=
    defaultedList?_of_find? (find?_givenMembers hn) hpositional
  have hvariadic : optional? argument? (givenMembers a.fields) "vararg" = some a.variadic :=
    optional?_of_find? (find?_givenMembers hn) Argument.toJson_ne_null hvariadic
  have hkeywordOnly : defaulted? (list? argument?) [] (givenMembers a.fields) "kwonlyargs" =
      some a.keywordOnly :=
    defaultedList?_of_find? (find?_givenMembers hn) hkeywordOnly
  have hkeywords : optional? argument? (givenMembers a.fields) "kwarg" = some a.keywords :=
    optional?_of_find? (find?_givenMembers hn) Argument.toJson_ne_null hkeywords
  simp [arguments?, hfields, hpositionalOnly, hpositional, hvariadic, hkeywordOnly, hkeywords]

theorem functionDef?_members {f : FunctionDef}
    (hf : FiniteFloats (Expression.constantsAll f.annotations)) :
    functionDef? (.obj f.members) = some f := by
  have hfields : fields? ["name", "args", "returns", "lineno", "col_offset"] (.obj f.members) =
      some (givenMembers f.fields) := by
    rw [f.members_eq]
    exact fields?_givenMembers (by decide) rfl
  have hn : (f.fields.map Prod.fst).Nodup := by
    simp [FunctionDef.fields]
  have hname : required? string? (givenMembers f.fields) "name" = some f.name :=
    required?_of_find? (find?_givenMembers hn) rfl
  have hargs : defaulted? arguments? .empty (givenMembers f.fields) "args" = some f.args := by
    refine defaulted?_of_find? (find?_givenMembers hn) (arguments?_toJson fun arg harg e he => ?_)
    exact hf.of_mem (List.mem_append_left _ (List.mem_filterMap.mpr ⟨arg, harg, he⟩))
  have hreturns : optional? nestedExpression? (givenMembers f.fields) "returns" =
      some f.returns := by
    refine optional?_of_find? (find?_givenMembers hn) Expression.toJson_ne_null fun e he => ?_
    exact nestedExpression?_toJson (hf.of_mem (List.mem_append_right _ (Option.mem_toList.mpr he)))
  have hline : optional? word? (givenMembers f.fields) "lineno" = some f.line :=
    optional?_of_find? (find?_givenMembers hn) wordJson_ne_null fun w _ => word?_wordJson w
  have hcolumn : optional? word? (givenMembers f.fields) "col_offset" = some f.column :=
    optional?_of_find? (find?_givenMembers hn) wordJson_ne_null fun w _ => word?_wordJson w
  simp [functionDef?, hfields, hname, hargs, hreturns, hline, hcolumn]

end Decode

/-! ## Statements -/

namespace Statement

theorem listToJson_eq (ss : List Statement) : listToJson ss = ss.map toJson := by
  induction ss with
  | nil => rfl
  | cons s ss ih => rw [listToJson, ih, List.map_cons]

def importFields (module : Option String) (level : UInt32) (names : List ImportedName) :
    List (String × Option Json) :=
  [("module", module.map .str), ("level", some (wordJson level)),
    ("names", some (.arr (names.map ImportedName.toJson)))]

theorem toJson_importFrom (module : Option String) (level : UInt32) (names : List ImportedName) :
    (importFrom module level names).toJson =
      .obj (kindMember StatementKind.importFrom.label ::
        givenMembers (importFields module level names)) := by
  cases module <;> rfl

def declareFields (target hint : Expression) (value : Option Expression) :
    List (String × Option Json) :=
  [("target", some target.toJson), ("annotation", some hint.toJson),
    ("value", value.map Expression.toJson)]

theorem toJson_declare (target hint : Expression) (value : Option Expression) :
    (declare target hint value).toJson =
      .obj (kindMember StatementKind.declare.label ::
        givenMembers (declareFields target hint value)) := by
  cases value <;> rfl

end Statement

namespace Decode

theorem find?_label_statement (k : StatementKind) :
    StatementKind.all.find? (fun k' => k'.label == k.label) = some k := by
  cases k <;> decide

theorem nestedExpressions?_toJson {es : List Expression}
    (hf : FiniteFloats (Expression.constantsAll es)) :
    list? nestedExpression? (.arr (Expression.listToJson es)) = some es := by
  rw [Expression.listToJson_eq]
  exact list?_map fun e he => nestedExpression?_toJson (hf.of_mem he)

theorem importedNames?_toJson (names : List ImportedName) :
    list? importedName? (.arr (names.map ImportedName.toJson)) = some names :=
  list?_map fun i _ => importedName?_toJson i

theorem statement?_importFrom (depth : Nat) (nested : Bool) (module : Option String)
    (level : UInt32) (names : List ImportedName) :
    statement? (depth + 1) nested (Statement.importFrom module level names).toJson =
      some (.importFrom module level names) := by
  have hn : ((Statement.importFields module level names).map Prod.fst).Nodup := by
    simp [Statement.importFields]
  have hkind : "kind" ∉ (Statement.importFields module level names).map Prod.fst := by
    simp [Statement.importFields]
  have hfields : fields? ["module", "level", "names"]
      (.obj (givenMembers (Statement.importFields module level names))) = some _ :=
    fields?_givenMembers (by decide) rfl
  have hmodule : optional? string? (givenMembers (Statement.importFields module level names))
      "module" = some module :=
    optional?_of_find? (find?_givenMembers hn) (by simp) fun _ _ => rfl
  have hlevel : defaulted? word? 0 (givenMembers (Statement.importFields module level names))
      "level" = some level :=
    defaulted?_of_find? (find?_givenMembers hn) (word?_wordJson level)
  have hnames : required? (list? importedName?)
      (givenMembers (Statement.importFields module level names)) "names" = some names :=
    required?_of_find? (find?_givenMembers hn) (importedNames?_toJson names)
  rw [Statement.toJson_importFrom, statement?, tagged?_givenMembers nested _ hkind]
  simp [find?_label_statement, hfields, hmodule, hlevel, hnames]

theorem statement?_declare (depth : Nat) (nested : Bool) {target hint : Expression}
    {value : Option Expression}
    (hf : FiniteFloats (Statement.declare target hint value).constants) :
    statement? (depth + 1) nested (Statement.declare target hint value).toJson =
      some (.declare target hint value) := by
  have hn : ((Statement.declareFields target hint value).map Prod.fst).Nodup := by
    simp [Statement.declareFields]
  have hkind : "kind" ∉ (Statement.declareFields target hint value).map Prod.fst := by
    simp [Statement.declareFields]
  have hfields : fields? ["target", "annotation", "value"]
      (.obj (givenMembers (Statement.declareFields target hint value))) = some _ :=
    fields?_givenMembers (by decide) rfl
  have htarget : required? nestedExpression?
      (givenMembers (Statement.declareFields target hint value)) "target" = some target := by
    refine required?_of_find? (find?_givenMembers hn) (nestedExpression?_toJson (hf.mono ?_))
    exact List.subset_append_of_subset_left _ (List.subset_append_left _ _)
  have hhint : required? nestedExpression?
      (givenMembers (Statement.declareFields target hint value)) "annotation" = some hint := by
    refine required?_of_find? (find?_givenMembers hn) (nestedExpression?_toJson (hf.mono ?_))
    exact List.subset_append_of_subset_left _ (List.subset_append_right _ _)
  have hvalue : optional? nestedExpression?
      (givenMembers (Statement.declareFields target hint value)) "value" = some value := by
    refine optional?_of_find? (find?_givenMembers hn) Expression.toJson_ne_null fun e he => ?_
    have hvalue := hf.mono (List.subset_append_right _ _)
    exact nestedExpression?_toJson (hvalue.of_mem (Option.mem_toList.mpr he))
  rw [Statement.toJson_declare, statement?, tagged?_givenMembers nested _ hkind]
  simp [find?_label_statement, hfields, htarget, hhint, hvalue]

theorem statement?_toJson {s : Statement} {depth : Nat} (nested : Bool)
    (hd : s.toJson.depth ≤ depth) (hf : FiniteFloats s.constants) :
    statement? depth nested s.toJson = some s := by
  induction depth generalizing s nested with
  | zero => cases s <;> simp [Statement.toJson, Json.depth] at hd
  | succ depth ih =>
    cases s with
    | importModules names =>
      simp [Statement.toJson, statement?, tagged?_obj, fields?_obj, find?_label_statement,
        Table.keys, Table.find?, required?, importedNames?_toJson]
    | importFrom module level names => exact statement?_importFrom depth nested module level names
    | assign targets value =>
      have htargets := nestedExpressions?_toJson (hf.mono (List.subset_append_left _ _))
      have hvalue := nestedExpression?_toJson (hf.mono (List.subset_append_right _ _))
      simp [Statement.toJson, statement?, tagged?_obj, fields?_obj, find?_label_statement,
        Table.keys, Table.find?, required?, htargets, hvalue]
    | declare target hint value => exact statement?_declare depth nested hf
    | classDef name bases keywords body =>
      rw [Statement.toJson, Statement.listToJson_eq] at hd ⊢
      have hbases := nestedExpressions?_toJson
        (hf.mono (List.subset_append_of_subset_left _ (List.subset_append_left _ _)))
      have hkeywords : list? keyword? (.arr (keywords.map ClassKeyword.toJson)) =
          some keywords := by
        refine list?_map fun k hk => keyword?_toJson (EveryFloat.of_mem ?_ (List.mem_map_of_mem hk))
        exact hf.mono (List.subset_append_of_subset_left _ (List.subset_append_right _ _))
      have hbody : list? (statement? depth true) (.arr (body.map Statement.toJson)) =
          some body := by
        refine list?_map fun s hs => ih true ?_ (hf.mono ?_)
        · have hstatements := Json.depth_member hd (List.mem_of_getLast? rfl)
          exact Json.depth_item (Nat.le_succ_of_le hstatements) (List.mem_map_of_mem hs)
        · exact fun c hc => List.mem_append_right _ (Statement.mem_constantsAll.mpr ⟨s, hs, hc⟩)
      simp [statement?, tagged?_obj, fields?_obj, find?_label_statement, Table.keys, Table.find?,
        required?, defaulted?, string?, hbases, hkeywords, hbody]
    | functionDef f =>
      have hkind : "kind" ∉ f.fields.map Prod.fst := by
        simp [FunctionDef.fields]
      have hdefinition := functionDef?_members hf
      rw [f.members_eq] at hdefinition
      rw [Statement.toJson, f.members_eq, statement?, tagged?_givenMembers nested _ hkind]
      simp [find?_label_statement, hdefinition]
    | other => rfl

end Decode

/-- A tree is read from its document. -/
theorem SyntaxTree.ofJson?_toJson {t : SyntaxTree} (hf : FiniteFloats t.constants) :
    SyntaxTree.ofJson? t.toJson = some t := by
  rw [SyntaxTree.toJson, Statement.listToJson_eq]
  generalize hv : Json.obj [("body", .arr (t.body.map Statement.toJson))] = v
  have hd : (Json.arr (t.body.map Statement.toJson)).depth ≤ v.depth := by
    rw [← hv]
    exact Nat.le_succ_of_le (Json.depth_le_depthMembers (m := ("body", _)) (.head _))
  have hbody : Decode.list? (Decode.statement? v.depth false)
      (.arr (t.body.map Statement.toJson)) = some t.body := by
    refine Decode.list?_map fun s hs => Decode.statement?_toJson false ?_ (hf.mono ?_)
    · exact Json.depth_item (Nat.le_succ_of_le hd) (List.mem_map_of_mem hs)
    · exact fun c hc => Statement.mem_constantsAll.mpr ⟨s, hs, hc⟩
  have hfields : Decode.fields? ["body"] v = some [("body", .arr (t.body.map Statement.toJson))] :=
    hv ▸ Decode.fields?_obj (by decide) (List.Sublist.refl _)
  simp [SyntaxTree.ofJson?, hfields, Decode.defaulted?, Table.find?, hbody]

end CallSchema
