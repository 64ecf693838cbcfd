import CallSchema.Proofs.Annotations
import CallSchema.Proofs.TreeDocuments
import CallSchema.SourceFile

/-! # Trees and their text

The numbers in the document of a tree are whole numbers of 64 bits and the doubles of its constants.
If the texts of these doubles read back, so does the text of the whole tree.
-/

namespace CallSchema

namespace Json

@[simp]
theorem numbersReadBack_str (s : String) : (Json.str s).NumbersReadBack := by
  simp [NumbersReadBack, numbers]

@[simp]
theorem numbersReadBack_bool (b : Bool) : (Json.bool b).NumbersReadBack := by
  simp [NumbersReadBack, numbers]

@[simp]
theorem numbersReadBack_kind (l : String) : (kindMember l).2.NumbersReadBack :=
  numbersReadBack_str l

theorem numbersReadBack_int {i : Int} (hlo : -9223372036854775808 ≤ i)
    (hhi : i < 18446744073709551616) :
    (Json.int i).NumbersReadBack := by
  simpa [NumbersReadBack, numbers] using parse?_compact_int hlo hhi

@[simp]
theorem numbersReadBack_wordJson (w : UInt32) : (wordJson w).NumbersReadBack := by
  have hw := w.toNat_lt
  exact numbersReadBack_int (by omega) (by omega)

/-- Only what is given is written. -/
theorem numbersReadBack_givenMembers {fields : List (String × Option Json)}
    (h : ∀ field ∈ fields, ∀ v ∈ field.2, v.NumbersReadBack) :
    ∀ m ∈ givenMembers fields, m.2.NumbersReadBack := by
  intro m hm
  obtain ⟨field, hfield, hm⟩ := List.mem_filterMap.mp hm
  obtain ⟨v, hv, rfl⟩ := Option.map_eq_some_iff.mp hm
  exact h field hfield v hv

@[simp]
theorem numbersReadBack_nonemptyArray {vs : List Json} :
    (∀ v, nonemptyArray vs = some v → v.NumbersReadBack) ↔ ∀ v ∈ vs, v.NumbersReadBack := by
  cases vs <;> simp [nonemptyArray]

end Json

/-- The texts of all doubles among some constants read back. -/
abbrev FloatsReadBack (cs : List Constant) : Prop :=
  EveryFloat (fun x => (Json.float x).NumbersReadBack) cs

theorem Constant.numbersReadBack {c : Constant} (h : FloatsReadBack [c]) :
    c.toJson.NumbersReadBack := by
  cases c with
  | int i =>
    have hlo := i.le_toInt
    have hhi := i.toInt_lt
    simpa [toJson] using Json.numbersReadBack_int hlo (by omega)
  | float x =>
    have hx : (Json.ofBinary64 x).NumbersReadBack := by
      unfold Json.ofBinary64
      split
      · exact h x List.mem_cons_self
      · simp [Json.NumbersReadBack, Json.numbers]
    simpa [toJson] using hx
  | _ => simp [toJson]

theorem Expression.numbersReadBack {e : Expression} (h : FloatsReadBack e.constants) :
    e.toJson.NumbersReadBack := by
  induction e with
  | name id => simp [toJson]
  | access value attr ih => simp [toJson, ih h]
  | subscript value slice ihvalue ihslice =>
    have hvalue := ihvalue (h.mono (List.subset_append_left _ _))
    have hslice := ihslice (h.mono (List.subset_append_right _ _))
    simp [toJson, hvalue, hslice]
  | tuple elements ih =>
    have helements : ∀ e ∈ elements, e.toJson.NumbersReadBack := fun e he =>
      ih e he (EveryFloat.of_mem h he)
    simpa [toJson, listToJson_eq] using helements
  | constant value => simp [toJson, Constant.numbersReadBack h]
  | other => simp [toJson]

theorem Expression.numbersReadBack_list {es : List Expression}
    (h : FloatsReadBack (Expression.constantsAll es)) :
    (Json.arr (Expression.listToJson es)).NumbersReadBack := by
  have hes : ∀ e ∈ es, e.toJson.NumbersReadBack := fun e he => numbersReadBack (h.of_mem he)
  simpa [listToJson_eq] using hes

theorem ImportedName.numbersReadBack (i : ImportedName) : i.toJson.NumbersReadBack := by
  rw [toJson_eq, Json.numbersReadBack_obj]
  refine Json.numbersReadBack_givenMembers ?_
  simp [fields]

theorem Argument.numbersReadBack {a : Argument} (h : ∀ e ∈ a.hint, FloatsReadBack e.constants) :
    a.toJson.NumbersReadBack := by
  have hhint : ∀ e ∈ a.hint, e.toJson.NumbersReadBack := fun e he =>
    Expression.numbersReadBack (h e he)
  rw [toJson_eq, Json.numbersReadBack_obj]
  refine Json.numbersReadBack_givenMembers ?_
  simpa [fields] using hhint

theorem Arguments.numbersReadBack {a : Arguments}
    (h : ∀ arg ∈ a.all, ∀ e ∈ arg.hint, FloatsReadBack e.constants) :
    a.toJson.NumbersReadBack := by
  have hargs : ∀ arg ∈ a.all, arg.toJson.NumbersReadBack := fun arg harg =>
    Argument.numbersReadBack (h arg harg)
  simp only [all, List.forall_mem_append, Option.mem_toList] at hargs
  rw [toJson_eq, Json.numbersReadBack_obj]
  refine Json.numbersReadBack_givenMembers ?_
  simpa [fields, and_assoc] using hargs

theorem FunctionDef.numbersReadBack {f : FunctionDef}
    (h : FloatsReadBack (Expression.constantsAll f.annotations)) :
    (Json.obj f.members).NumbersReadBack := by
  have hargs : f.args.toJson.NumbersReadBack :=
    Arguments.numbersReadBack fun arg harg e he =>
      h.of_mem (List.mem_append_left _ (List.mem_filterMap.mpr ⟨arg, harg, he⟩))
  have hreturns : ∀ e ∈ f.returns, e.toJson.NumbersReadBack := fun e he =>
    Expression.numbersReadBack (h.of_mem (List.mem_append_right _ (Option.mem_toList.mpr he)))
  rw [members_eq, Json.numbersReadBack_obj]
  refine Json.numbersReadBack_givenMembers ?_
  simpa [fields, hargs] using hreturns

namespace Statement

/-- Induction on statements, those in the body of a class being available as such. -/
@[elab_as_elim, induction_eliminator]
theorem induct {motive : Statement → Prop} (importModules : ∀ names, motive (.importModules names))
    (importFrom : ∀ module level names, motive (.importFrom module level names))
    (assign : ∀ targets value, motive (.assign targets value))
    (declare : ∀ target hint value, motive (.declare target hint value))
    (classDef : ∀ name bases keywords body, (∀ s ∈ body, motive s) →
      motive (.classDef name bases keywords body))
    (functionDef : ∀ f, motive (.functionDef f)) (other : motive .other) : ∀ s, motive s := by
  intro s
  refine @Statement.rec motive (fun ss => ∀ s ∈ ss, motive s) importModules importFrom assign
    declare classDef functionDef other ?_ ?_ s
  · intro s hs
    exact absurd hs List.not_mem_nil
  · intro head tail hhead htail
    exact List.forall_mem_cons.mpr ⟨hhead, htail⟩

theorem numbersReadBack {s : Statement} (h : FloatsReadBack s.constants) :
    s.toJson.NumbersReadBack := by
  induction s with
  | importModules names => simp [toJson, ImportedName.numbersReadBack]
  | importFrom module level names =>
    have hfields : ∀ m ∈ givenMembers (importFields module level names), m.2.NumbersReadBack :=
      Json.numbersReadBack_givenMembers (by simp [importFields, ImportedName.numbersReadBack])
    rw [toJson_importFrom, Json.numbersReadBack_obj]
    exact List.forall_mem_cons.mpr ⟨Json.numbersReadBack_kind _, hfields⟩
  | assign targets value =>
    have htargets := Expression.numbersReadBack_list (h.mono (List.subset_append_left _ _))
    have hvalue := Expression.numbersReadBack (h.mono (List.subset_append_right _ _))
    simpa [toJson, hvalue] using htargets
  | declare target hint value =>
    have htarget := Expression.numbersReadBack
      (h.mono (List.subset_append_of_subset_left _ (List.subset_append_left _ _)))
    have hhint := Expression.numbersReadBack
      (h.mono (List.subset_append_of_subset_left _ (List.subset_append_right _ _)))
    have hvalue : ∀ e ∈ value, e.toJson.NumbersReadBack := fun e he =>
      Expression.numbersReadBack
        ((h.mono (List.subset_append_right _ _)).of_mem (Option.mem_toList.mpr he))
    have hfields : ∀ m ∈ givenMembers (declareFields target hint value), m.2.NumbersReadBack :=
      Json.numbersReadBack_givenMembers (by simpa [declareFields, htarget, hhint] using hvalue)
    rw [toJson_declare, Json.numbersReadBack_obj]
    exact List.forall_mem_cons.mpr ⟨Json.numbersReadBack_kind _, hfields⟩
  | classDef name bases keywords body ih =>
    have hbases := Expression.numbersReadBack_list
      (h.mono (List.subset_append_of_subset_left _ (List.subset_append_left _ _)))
    have hkeywords : ∀ k ∈ keywords, k.toJson.NumbersReadBack := by
      intro k hk
      have hvalue := Expression.numbersReadBack (EveryFloat.of_mem
        (h.mono (List.subset_append_of_subset_left _ (List.subset_append_right _ _)))
        (List.mem_map_of_mem hk))
      simp [ClassKeyword.toJson, hvalue]
    have hbody : ∀ s ∈ body, s.toJson.NumbersReadBack := fun s hs =>
      ih s hs (h.mono fun c hc => List.mem_append_right _ (mem_constantsAll.mpr ⟨s, hs, hc⟩))
    have hparts := And.intro (Json.numbersReadBack_arr.mp hbases) (And.intro hkeywords hbody)
    simpa [toJson, listToJson_eq] using hparts
  | functionDef f =>
    have hmembers := Json.numbersReadBack_obj.mp (FunctionDef.numbersReadBack h)
    rw [toJson, Json.numbersReadBack_obj]
    exact List.forall_mem_cons.mpr ⟨Json.numbersReadBack_kind _, hmembers⟩
  | other => simp [toJson]

end Statement

theorem SyntaxTree.numbersReadBack {t : SyntaxTree} (h : FloatsReadBack t.constants) :
    t.toJson.NumbersReadBack := by
  have hbody : ∀ s ∈ t.body, s.toJson.NumbersReadBack := fun s hs =>
    Statement.numbersReadBack (h.mono fun c hc => Statement.mem_constantsAll.mpr ⟨s, hs, hc⟩)
  simpa [toJson, Statement.listToJson_eq] using hbody

/-- The text of a tree that is not nested too deep and whose doubles are finite is loaded as that
tree, if the text of each of its doubles reads back. -/
theorem SyntaxTree.ofText_compact (t : SyntaxTree)
    (hfinite : ∀ x, .float x ∈ t.constants → x.isFinite = true)
    (hread : ∀ x, .float x ∈ t.constants → x.isFinite = true →
      Json.parse? 0 (Json.float x).compact = some (.float x))
    (hdepth : t.toJson.depth ≤ 127) : SyntaxTree.ofText t.toJson.compact = .ok t := by
  have hnumbers : t.toJson.NumbersReadBack := by
    refine SyntaxTree.numbersReadBack fun x hx => ?_
    simpa [Json.NumbersReadBack, Json.numbers] using hread x hx (hfinite x hx)
  have hparse : SyntaxTree.parse? t.toJson.compact = some t := by
    have hdocument : Json.parseKeeping? (· == "body") maxDepth t.toJson.compact = some t.toJson :=
      Json.parseKeeping?_compact (by simp) hdepth hnumbers
    rw [SyntaxTree.parse?, hdocument, Option.bind_some, SyntaxTree.ofJson?_toJson hfinite]
  rw [SyntaxTree.ofText, hparse]

/-- A module with a negative zero in an annotation and a tenth as a default value. -/
def SyntaxTree.gauge : SyntaxTree where
  body := [
    .importFrom none 1 [⟨"ports", some "p"⟩, ⟨"units", none⟩],
    .classDef "Gauge" [.attribute (.name "p") "Port"] [⟨"metaclass", .name "Meta"⟩] [
      .declare (.name "level")
        (.subscript (.name "Literal")
          (.tuple [.constant (.float ⟨0x8000000000000000⟩), .constant (.int (-1))]))
        (some (.constant (.float ⟨0x3FB999999999999A⟩))),
      .other],
    .functionDef
      { name := "read"
        args := ⟨[⟨"gauge", none, false⟩], [], some ⟨"rest", some .other, false⟩,
          [⟨"unit", some (.name "str"), true⟩], none⟩
        returns := some (.constant .none)
        line := some 7
        column := none }]

theorem SyntaxTree.ofText_compact_gauge :
    (∀ x, .float x ∈ gauge.constants → x.isFinite = true) ∧
      (∀ x, .float x ∈ gauge.constants → x.isFinite = true →
        Json.parse? 0 (Json.float x).compact = some (.float x)) ∧
      gauge.toJson.depth ≤ 127 ∧ SyntaxTree.ofText gauge.toJson.compact = .ok gauge := by
  have hfloats : ∀ x, .float x ∈ gauge.constants →
      x = ⟨0x8000000000000000⟩ ∨ x = ⟨0x3FB999999999999A⟩ := by
    have hconstants : gauge.constants = [.float ⟨0x8000000000000000⟩, .int (-1),
        .float ⟨0x3FB999999999999A⟩, .none] := by
      decide
    simp [hconstants]
  have hfinite : ∀ x, .float x ∈ gauge.constants → x.isFinite = true := by
    intro x hx
    rcases hfloats x hx with rfl | rfl <;> decide +kernel
  have hread : ∀ x, .float x ∈ gauge.constants → x.isFinite = true →
      Json.parse? 0 (Json.float x).compact = some (.float x) := by
    intro x hx _
    rcases hfloats x hx with rfl | rfl
    · have hchars : Json.floatChars ⟨0x8000000000000000⟩ = ['-', '0', '.', '0'] := by
        decide +kernel
      exact Json.parse?_compact_float hchars rfl rfl (by decide +kernel)
    · have hchars : Json.floatChars ⟨0x3FB999999999999A⟩ = ['0', '.', '1'] := by
        decide +kernel
      exact Json.parse?_compact_float hchars rfl rfl (by decide +kernel)
  have hdepth : gauge.toJson.depth ≤ 127 := by decide
  exact ⟨hfinite, hread, hdepth, ofText_compact gauge hfinite hread hdepth⟩

end CallSchema
