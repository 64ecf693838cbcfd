import CallSchema.Proofs.NodeAgreement

/-! # Edits that the decoder does not see

The members of an object can be put in another order, members that the decoder does not look up can
be added, and a part can be replaced by one that agrees with it.
-/

namespace CallSchema

open Decode

/-- One edit of a node whose members that matter are given. -/
inductive Touched (layout : Table String Place) : Json → Json → Prop
  | permute {ms ms' : List (String × Json)} (h : ms.Perm ms') : Touched layout (.obj ms) (.obj ms')
  | insert {before after : List (String × Json)} {key : String} {x : Json}
      (hkey : key ∉ layout.keys) :
      Touched layout (.obj (before ++ after)) (.obj (before ++ (key, x) :: after))
  | item {before after : List Json} {x y : Json} (h : Agree (placeAt layout before.length) x y) :
      Touched layout (.arr (before ++ x :: after)) (.arr (before ++ y :: after))
  | member {before after : List (String × Json)} {key : String} {x y : Json}
      (h : Agree (placeUnder layout key) x y) :
      Touched layout (.obj (before ++ (key, x) :: after)) (.obj (before ++ (key, y) :: after))

theorem Table.find?_eq_of_perm {κ ν : Type} [DecidableEq κ] {t t' : Table κ ν} (h : t.Perm t')
    (hn : t.keys.Nodup) (key : κ) : t.find? key = t'.find? key := by
  have hn' : t'.keys.Nodup := (h.map Prod.fst).nodup_iff.mp hn
  match hfind : t.find? key with
  | some value => exact (find?_of_mem hn' (h.subset (mem_of_find? hfind))).symm
  | none =>
    have habsent := find?_eq_none_iff.mp hfind
    exact (find?_eq_none_iff.mpr fun hk => habsent ((h.map Prod.fst).symm.subset hk)).symm

section Fields

variable {fields : Table String Place} {key : String} {x y : Json}

/-- The members of an object that are declared fields. -/
def declared (fields : Table String Place) (ms : List (String × Json)) : Table String Json :=
  ms.filter fun m => decide (m.1 ∈ fields.keys)

theorem fieldsRel_obj {ms ms' : List (String × Json)}
    (hnodup : (declared fields ms).keys.Nodup ↔ (declared fields ms').keys.Nodup)
    (h : (declared fields ms).keys.Nodup →
      TableRel Agree fields (declared fields ms) (declared fields ms')) :
    FieldsRel Agree fields (.obj ms) (.obj ms') := by
  change Option.Rel _ (if (declared fields ms).keys.Nodup then some _ else none)
    (if (declared fields ms').keys.Nodup then some _ else none)
  by_cases hn : (declared fields ms).keys.Nodup
  · rw [if_pos hn, if_pos (hnodup.mp hn)]
    exact .some (h hn)
  · rw [if_neg hn, if_neg (mt hnodup.mpr hn)]
    exact .none

theorem fieldsRel_permute {ms ms' : List (String × Json)} (h : ms.Perm ms') :
    FieldsRel Agree fields (.obj ms) (.obj ms') := by
  have hdeclared : (declared fields ms).Perm (declared fields ms') := h.filter _
  refine fieldsRel_obj (hdeclared.map Prod.fst).nodup_iff fun hn name place _ => ?_
  exact rel_of_eq (Table.find?_eq_of_perm hdeclared hn name)

theorem fieldsRel_insert {before after : List (String × Json)} (hkey : key ∉ fields.keys) :
    FieldsRel Agree fields (.obj (before ++ after)) (.obj (before ++ (key, x) :: after)) := by
  have hdeclared : declared fields (before ++ (key, x) :: after) =
      declared fields (before ++ after) := by
    simp [declared, hkey]
  refine fieldsRel_obj (by rw [hdeclared]) fun _ name place _ => ?_
  exact rel_of_eq (by rw [hdeclared])

/-- A value of a table that is replaced is found only under its own key. -/
theorem find?_replace {p : Place} {before after : Table String Json} {name : String}
    (h : key = name → Agree p x y) :
    Option.Rel (Agree p) (Table.find? (before ++ (key, x) :: after) name)
      (Table.find? (before ++ (key, y) :: after) name) := by
  induction before with
  | nil =>
    by_cases hname : key = name
    · simpa [Table.find?, hname] using h hname
    · exact rel_of_eq (by simp [Table.find?, hname])
  | cons m before ih =>
    obtain ⟨k, v⟩ := m
    by_cases hname : k = name
    · exact rel_of_eq (by simp [Table.find?, hname])
    · simpa [Table.find?, hname] using ih

theorem fieldsRel_member {before after : List (String × Json)}
    (h : Agree (placeUnder fields key) x y) :
    FieldsRel Agree fields (.obj (before ++ (key, x) :: after))
      (.obj (before ++ (key, y) :: after)) := by
  by_cases hkey : key ∈ fields.keys
  · have hdeclared : ∀ v, declared fields (before ++ (key, v) :: after) =
        declared fields before ++ (key, v) :: declared fields after := by
      intro v
      simp [declared, hkey]
    refine fieldsRel_obj (by simp [hdeclared, Table.keys]) fun _ name place hplace => ?_
    rw [hdeclared, hdeclared]
    refine find?_replace fun hname => ?_
    rwa [placeUnder, hname, hplace] at h
  · have hdeclared : ∀ v, declared fields (before ++ (key, v) :: after) =
        declared fields (before ++ after) := by
      intro v
      simp [declared, hkey]
    refine fieldsRel_obj (by rw [hdeclared, hdeclared]) fun _ name place _ => ?_
    exact rel_of_eq (by rw [hdeclared, hdeclared])

/-- An item that is replaced is found only under the name of its place. -/
theorem find?_zip_replace {before after : List Json} {name : String} {place : Place}
    (hplace : fields.find? name = some place) (h : Agree (placeAt fields before.length) x y) :
    Option.Rel (Agree place) (Table.find? (fields.keys.zip (before ++ x :: after)) name)
      (Table.find? (fields.keys.zip (before ++ y :: after)) name) := by
  induction fields generalizing before with
  | nil => cases hplace
  | cons field fields ih =>
    obtain ⟨k, p⟩ := field
    by_cases hname : k = name
    · cases before with
      | nil =>
        obtain rfl : p = place := by simpa [Table.find?, hname] using hplace
        simpa [Table.keys, Table.find?, hname, placeAt] using h
      | cons v before => exact rel_of_eq (by simp [Table.keys, Table.find?, hname])
    · cases before with
      | nil => exact rel_of_eq (by simp [Table.keys, Table.find?, hname])
      | cons v before =>
        have hrest : Agree (placeAt fields before.length) x y := by simpa [placeAt] using h
        simpa [Table.keys, Table.find?, hname] using
          ih (by simpa [Table.find?, hname] using hplace) hrest

theorem fieldsRel_item {before after : List Json} (h : Agree (placeAt fields before.length) x y) :
    FieldsRel Agree fields (.arr (before ++ x :: after)) (.arr (before ++ y :: after)) := by
  simp only [FieldsRel, fields?, List.length_append, List.length_cons]
  split
  · exact .some fun name place hplace => find?_zip_replace hplace h
  · exact .none

theorem Touched.fieldsRel {v w : Json} (h : Touched fields v w) : FieldsRel Agree fields v w := by
  cases h with
  | permute h => exact fieldsRel_permute h
  | insert hkey => exact fieldsRel_insert hkey
  | item h => exact fieldsRel_item h
  | member h => exact fieldsRel_member h

end Fields

section Kinds

variable {κ : Type} {kinds : List κ} {label : κ → String} {nested : Bool}
  {kindOf : κ → Table String Place} {fields : Table String Place} {v w : Json}

/-- The value of a member that is the only one. -/
def single? : List (String × Json) → Option Json
  | [(_, v)] => some v
  | _ => none

theorem tagged?_obj_eq (ms : List (String × Json)) :
    tagged? kinds label nested (.obj ms) =
      ((single? (ms.filter fun m => m.1 == "kind")).bind (kind? kinds label nested)).map fun k =>
        (k, .obj (ms.filter fun m => m.1 != "kind")) := by
  match hkinds : ms.filter fun m => m.1 == "kind" with
  | [] | _ :: _ :: _ => simp [tagged?, hkinds, single?]
  | [(_, tag)] =>
    simp only [tagged?, hkinds, single?, Option.bind_some]
    cases kind? kinds label nested tag <;> rfl

theorem single?_of_perm {ms ms' : List (String × Json)} (h : ms.Perm ms') :
    single? ms = single? ms' := by
  by_cases hone : ms.length = 1
  · obtain ⟨m, rfl⟩ := List.length_eq_one_iff.mp hone
    rw [List.singleton_perm.mp h]
  · have hnone : ∀ {ms : List (String × Json)}, ms.length ≠ 1 → single? ms = none := by
      intro ms h
      match ms with
      | [] | _ :: _ :: _ => rfl
      | [_] => exact absurd rfl h
    rw [hnone hone, hnone (h.length_eq ▸ hone)]

theorem single?_replace {before after : List (String × Json)} {key : String} {x y : Json}
    (h : Alike x y) :
    (single? (before ++ (key, x) :: after)).bind (kind? kinds label nested) =
      (single? (before ++ (key, y) :: after)).bind (kind? kinds label nested) := by
  match before, after with
  | [], [] => exact h.kind?
  | [], _ :: _ | [_], _ | _ :: _ :: _, _ => rfl

theorem tagged?_arr_eq (tag : Json) (rest : List Json) :
    tagged? kinds label nested (.arr (tag :: rest)) =
      (kind? kinds label nested tag).map fun k => (k, .arr rest) := by
  cases hk : kind? kinds label nested tag <;> simp [tagged?, hk]

/-- An edit of a node that tells its kind is one of its kind or one of what else it holds. -/
theorem Touched.tagged? (h : Touched (("kind", .plain) :: fields) v w) :
    Option.Rel (fun p q => p.1 = q.1 ∧ (p.2 = q.2 ∨ Touched fields p.2 q.2))
      (tagged? kinds label nested v) (tagged? kinds label nested w) := by
  cases h with
  | permute h =>
    rw [tagged?_obj_eq, tagged?_obj_eq, single?_of_perm (h.filter _)]
    exact rel_map_self _ fun k => ⟨rfl, .inr (.permute (h.filter _))⟩
  | insert hkey =>
    obtain ⟨hkind, hkey⟩ := not_or.mp (mt List.mem_cons.mpr hkey)
    simp only [tagged?_obj_eq, List.filter_append, List.filter_cons, beq_eq_false_iff_ne.mpr hkind,
      bne, Bool.not_false, Bool.false_eq_true, if_false, if_true]
    exact rel_map_self _ fun k => ⟨rfl, .inr (.insert hkey)⟩
  | @item before after x y h =>
    cases before with
    | nil =>
      have hkind : Alike x y := by simpa [placeAt, Agree] using h
      rw [List.nil_append, List.nil_append, tagged?_arr_eq, tagged?_arr_eq, hkind.kind?]
      exact rel_map_self _ fun k => ⟨rfl, .inl rfl⟩
    | cons tag before =>
      have hrest : Agree (placeAt fields before.length) x y := by simpa [placeAt] using h
      rw [List.cons_append, List.cons_append, tagged?_arr_eq, tagged?_arr_eq]
      exact rel_map_self _ fun k => ⟨rfl, .inr (.item hrest)⟩
  | @member before after key x y h =>
    by_cases hkey : key = "kind"
    · subst hkey
      have hkind : Alike x y := by simpa [placeUnder, Table.find?, Agree] using h
      simp only [tagged?_obj_eq, List.filter_append, List.filter_cons, beq_self_eq_true, bne,
        Bool.not_true, Bool.false_eq_true, if_false, if_true]
      rw [single?_replace hkind]
      exact rel_map_self _ fun k => ⟨rfl, .inl rfl⟩
    · have hrest : Agree (placeUnder fields key) x y := by
        simpa [placeUnder, Table.find?, Ne.symm hkey] using h
      simp only [tagged?_obj_eq, List.filter_append, List.filter_cons,
        beq_eq_false_iff_ne.mpr hkey, bne, Bool.not_false, Bool.false_eq_true, if_false, if_true]
      exact rel_map_self _ fun k => ⟨rfl, .inr (.member hrest)⟩

theorem Touched.taggedRel (h : Touched (kindLayout kinds label nested kindOf v) v w) :
    TaggedRel kinds label nested kindOf Agree v w := by
  refine rel_imp h.tagged? fun p q hp _ ⟨hk, h⟩ => ⟨hk, ?_⟩
  rcases h with heq | h
  · rw [heq]
    exact fieldsRel_of_eq rfl
  · simp only [hp] at h
    exact h.fieldsRel

end Kinds

/-! ## Edits of a value at a place -/

theorem Touched.not_null {layout : Table String Place} {v w : Json} (h : Touched layout v w) :
    v = .null ↔ w = .null := by
  cases h <;> simp

/-- An edit that spares the members that matter is not seen. -/
theorem Touched.agree {role : Role} {v w : Json} (h : Touched (role.layout v) v w) :
    Agree (.node role) v w := by
  refine ⟨h.not_null, ?_⟩
  cases role with
  | module => exact ofJson?_congr h.fieldsRel
  | statement nested => exact follows_statement?.congr h.taggedRel
  | expression => exact follows_expression?.congr h.taggedRel
  | importedName => exact importedName?_congr h.fieldsRel
  | keyword => exact keyword?_congr h.fieldsRel
  | arguments => exact arguments?_congr h.fieldsRel
  | argument => exact argument?_congr h.fieldsRel

theorem agree_permute (p : Place) {ms ms' : List (String × Json)} (h : ms.Perm ms') :
    Agree p (.obj ms) (.obj ms') := by
  cases p with
  | plain => exact Alike.of_perm h
  | node role => exact (Touched.permute h).agree
  | nodes role => exact ⟨by simp, rfl⟩

theorem agree_insert {role : Role} {before after : List (String × Json)} {key : String} {x : Json}
    (hkey : key ∉ (role.layout (.obj (before ++ after))).keys) :
    Agree (.node role) (.obj (before ++ after)) (.obj (before ++ (key, x) :: after)) :=
  (Touched.insert hkey).agree

theorem agree_member {p : Place} {before after : List (String × Json)} {key : String} {x y : Json}
    (h : Agree (p.member (.obj (before ++ (key, x) :: after)) key) x y) :
    Agree p (.obj (before ++ (key, x) :: after)) (.obj (before ++ (key, y) :: after)) := by
  cases p with
  | plain => exact Alike.of_member h
  | node role => exact (Touched.member h).agree
  | nodes role => exact ⟨by simp, rfl⟩

theorem agree_item {p : Place} {before after : List Json} {x y : Json}
    (h : Agree (p.item (.arr (before ++ x :: after)) before.length) x y) :
    Agree p (.arr (before ++ x :: after)) (.arr (before ++ y :: after)) := by
  cases p with
  | plain => exact Alike.arr ..
  | node role => exact (Touched.item h).agree
  | nodes role =>
    refine ⟨by simp, ?_⟩
    rw [list?, list?, List.mapM_append, List.mapM_append, List.mapM_cons, List.mapM_cons, h.2]

end CallSchema
