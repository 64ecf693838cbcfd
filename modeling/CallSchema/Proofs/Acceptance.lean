import Mathlib.Data.List.Perm.Subperm
import CallSchema.Proofs.Tables
import CallSchema.Proofs.Validation

/-! # The values a schema accepts

What the document of a schema admits, said in terms of the schema. Schemas that count as the same
accept the same values, so that merging them in a union loses nothing.
-/

namespace CallSchema

namespace Schema

/-- Induction on schemas, properties and alternatives being available as such. -/
@[elab_as_elim, induction_eliminator]
theorem induct {motive : Schema → Prop} (null : motive .null) (boolean : motive .boolean)
    (integer : motive .integer) (number : motive .number) (string : motive .string)
    (enum : ∀ values, motive (.enum values)) (anyArray : motive .anyArray)
    (array : ∀ items, motive items → motive (.array items))
    (mapping : ∀ rest, (∀ s, rest = .each s → motive s) → motive (.mapping rest))
    (object : ∀ properties required rest, (∀ p ∈ properties, motive p.2) →
      (∀ s, rest = .each s → motive s) → motive (.object properties required rest))
    (anyOf : ∀ variants, (∀ s ∈ variants, motive s) → motive (.anyOf variants)) :
    ∀ s, motive s := by
  intro s
  refine @Schema.rec motive (fun rest => ∀ s, rest = .each s → motive s)
    (fun ps => ∀ p ∈ ps, motive p.2) (fun ss => ∀ s ∈ ss, motive s) (fun p => motive p.2) null
    boolean integer number string enum anyArray array mapping object anyOf ?_ ?_ ?_ ?_ ?_ ?_ ?_ ?_ s
  · intro s h; cases h
  · intro s h; cases h
  · rintro values hv s ⟨⟩; exact hv
  · intro p hp; exact absurd hp List.not_mem_nil
  · intro p ps hhead htail q hq
    rcases List.mem_cons.mp hq with rfl | hq
    · exact hhead
    · exact htail q hq
  · intro s hs; exact absurd hs List.not_mem_nil
  · intro s ss hhead htail t ht
    rcases List.mem_cons.mp ht with rfl | ht
    · exact hhead
    · exact htail t ht
  · intro _ _ h; exact h

/-- Whether the document of a schema admits a value. -/
def Accepts (s : Schema) (v : Json) : Prop :=
  s.toJson.admits v = true

end Schema

/-- What members without a declared property must be. -/
def Additional.Accepts : Additional Schema → Json → Prop
  | .anything, _ => True
  | .nothing, _ => False
  | .each s, v => s.Accepts v

namespace Schema

variable {v : Json}

attribute [local simp] Json.hasType Json.items Json.members

/-- The language of a document constrains nothing. -/
theorem admits_document (s : Schema) : s.document.admits v = true ↔ s.Accepts v := by
  rfl

theorem accepts_type {s : Schema} {name : String} (h : s.members = [typeMember name]) :
    s.Accepts v ↔ v.hasType name = true := by
  rw [Accepts, toJson, h, typeMember]
  simp only [Json.admits_obj, Json.admitsKeywords_type, Json.admitsKeywords_nil, Bool.and_true]

theorem accepts_null : Accepts .null v ↔ v = .null := by
  have htype : Accepts .null v ↔ v.hasType "null" = true := accepts_type rfl
  rw [htype]
  cases v <;> simp

theorem accepts_boolean : Accepts .boolean v ↔ ∃ b, v = .bool b := by
  have htype : Accepts .boolean v ↔ v.hasType "boolean" = true := accepts_type rfl
  rw [htype]
  cases v <;> simp

theorem accepts_integer : Accepts .integer v ↔ v.isWhole = true := by
  have htype : Accepts .integer v ↔ v.hasType "integer" = true := accepts_type rfl
  rw [htype]
  cases v <;> simp [Json.isWhole, Json.number?]

theorem accepts_number : Accepts .number v ↔ (∃ i, v = .int i) ∨ ∃ x, v = .float x := by
  have htype : Accepts .number v ↔ v.hasType "number" = true := accepts_type rfl
  rw [htype]
  cases v <;> simp

theorem accepts_string : Accepts .string v ↔ ∃ s, v = .str s := by
  have htype : Accepts .string v ↔ v.hasType "string" = true := accepts_type rfl
  rw [htype]
  cases v <;> simp

theorem accepts_anyArray : Accepts .anyArray v ↔ ∃ vs, v = .arr vs := by
  have htype : Accepts .anyArray v ↔ v.hasType "array" = true := accepts_type rfl
  rw [htype]
  cases v <;> simp

theorem accepts_enum {values : List Literal} :
    Accepts (.enum values) v ↔ ∃ l ∈ values, l.toJson.equal v = true := by
  have hmembers : toJson (.enum values) = .obj [("enum", .arr (values.map Literal.toJson))] := rfl
  rw [Accepts, hmembers]
  simp

theorem accepts_array {items : Schema} :
    Accepts (.array items) v ↔ ∃ vs, v = .arr vs ∧ ∀ w ∈ vs, items.Accepts w := by
  have hmembers : toJson (.array items) =
      .obj [("type", .str "array"), ("items", items.toJson)] := rfl
  rw [Accepts, hmembers]
  cases v <;> simp [Accepts]

theorem admitsAny_toJsonAll {ss : List Schema} :
    Json.admitsAny (toJsonAll ss) v = true ↔ ∃ s ∈ ss, s.Accepts v := by
  induction ss with
  | nil => simp [toJsonAll, Json.admitsAny]
  | cons s ss ih => simp [toJsonAll, Json.admitsAny, ih, Accepts, toJson]

theorem accepts_anyOf {variants : List Schema} :
    Accepts (.anyOf variants) v ↔ ∃ s ∈ variants, s.Accepts v := by
  have hmembers : toJson (.anyOf variants) = .obj [("anyOf", .arr (toJsonAll variants))] := rfl
  rw [← admitsAny_toJsonAll, Accepts, hmembers]
  simp

theorem admitsKeywords_additional {names : List String} {rest : Additional Schema}
    {ms : List (String × Json)} :
    Json.admitsKeywords names (additionalMembers rest) (.obj ms) = true ↔
      ∀ p ∈ ms, p.1 ∉ names → rest.Accepts p.2 := by
  cases rest with
  | anything => simp [additionalMembers, Additional.Accepts]
  | nothing =>
    have hfalse (w : Json) : Json.admits (.bool false) w = false := rfl
    simp [additionalMembers, Additional.Accepts, hfalse]
  | each s =>
    simp only [additionalMembers, Json.admitsKeywords_additionalProperties,
      Json.admitsKeywords_nil, Json.members, Bool.and_true, List.all_eq_true, Bool.or_eq_true,
      decide_eq_true_eq, or_iff_not_imp_left]
    rfl

theorem accepts_mapping {rest : Additional Schema} :
    Accepts (.mapping rest) v ↔ ∃ ms, v = .obj ms ∧ ∀ p ∈ ms, rest.Accepts p.2 := by
  have hmembers : toJson (.mapping rest) = .obj (("type", .str "object") ::
      additionalMembers rest) := rfl
  have hdeclared : Json.declared (("type", .str "object") :: additionalMembers rest) = [] := by
    cases rest <;> rfl
  rw [Accepts, hmembers, Json.admits_obj, hdeclared]
  cases v with
  | obj ms => simp [admitsKeywords_additional]
  | _ => simp

theorem admitsProperty_members {ps : List (String × Schema)} {p : String × Json} :
    Json.admitsProperty (propertyMembers ps) p = true ↔
      ∀ s, Table.find? ps p.1 = some s → s.Accepts p.2 := by
  induction ps with
  | nil => simp [propertyMembers, Json.admitsProperty, Table.find?]
  | cons q ps ih =>
    obtain ⟨k, s⟩ := q
    by_cases hk : k = p.1
    · simp [propertyMembers, Json.admitsProperty, Table.find?, hk, Accepts, toJson]
    · simp [propertyMembers, Json.admitsProperty, Table.find?, hk, ih]

theorem keys_propertyMembers (ps : List (String × Schema)) :
    (propertyMembers ps).map Prod.fst = ps.map Prod.fst := by
  induction ps with
  | nil => rfl
  | cons p ps ih => simp [propertyMembers, ih]

theorem accepts_object {ps : List (String × Schema)} {required : List String}
    {rest : Additional Schema} :
    Accepts (.object ps required rest) v ↔ ∃ ms, v = .obj ms ∧
      (∀ p ∈ ms, ∀ s, Table.find? ps p.1 = some s → s.Accepts p.2) ∧
      (∀ k ∈ required, k ∈ ms.map Prod.fst) ∧
      ∀ p ∈ ms, p.1 ∉ ps.map Prod.fst → rest.Accepts p.2 := by
  have hmembers : toJson (.object ps required rest) = .obj (("type", .str "object") ::
      ("properties", .obj (propertyMembers ps)) :: ("required", .arr (required.map .str)) ::
        additionalMembers rest) := rfl
  have hdeclared : Json.declared (("type", .str "object") ::
      ("properties", .obj (propertyMembers ps)) :: ("required", .arr (required.map .str)) ::
        additionalMembers rest) = (propertyMembers ps).map Prod.fst := rfl
  have hequal (a b : String) : Json.equal (.str a) (.str b) = (a == b) := rfl
  rw [Accepts, hmembers, Json.admits_obj, hdeclared, keys_propertyMembers]
  cases v with
  | obj ms => simp [admitsProperty_members, admitsKeywords_additional, hequal]
  | _ => simp

end Schema

namespace Literal

/-- A number is only equal to numbers. -/
theorem equal_float (x : Binary64) (v : Json) :
    Json.equal (.float x) v = Json.sameNumber (.float x) v := by
  cases v <;> rfl

theorem value?_of_isZero {x : Binary64} (h : x.isZero = true) : x.value? = some 0 := by
  have hm : x.magnitude = 0 := by simpa [Binary64.isZero] using h
  simp [Binary64.value?, Binary64.isFinite, hm, Binary64.infinite, Binary64.exponentUnit,
    Binary64.units, Binary64.significand]

theorem isFinite_of_isZero {x : Binary64} (h : x.isZero = true) : x.isFinite = true := by
  have hm : x.magnitude = 0 := by simpa [Binary64.isZero] using h
  simp [Binary64.isFinite, hm, Binary64.infinite, Binary64.exponentUnit]

/-- Literals that count as the same are equal to the same values. -/
theorem equal_of_same {a b : Literal} (h : same a b = true) (v : Json) :
    a.toJson.equal v = b.toJson.equal v := by
  unfold same at h
  split at h
  · rename_i x y
    rcases Bool.or_eq_true_iff.mp h with h | h
    · have hxy : x = y := by simp_all
      rw [hxy]
    · obtain ⟨hx, hy⟩ := Bool.and_eq_true_iff.mp h
      simp only [toJson, Json.ofBinary64, isFinite_of_isZero hx, isFinite_of_isZero hy, if_true,
        equal_float, Json.sameNumber, Json.number?, value?_of_isZero hx, value?_of_isZero hy]
  · rw [of_decide_eq_true h]

theorem exists_equal_of_sameAll {as bs : List Literal} (h : sameAll as bs = true) (v : Json) :
    (∃ l ∈ as, l.toJson.equal v = true) ↔ ∃ l ∈ bs, l.toJson.equal v = true := by
  induction as generalizing bs with
  | nil =>
    cases bs with
    | nil => rfl
    | cons b bs => simp [sameAll] at h
  | cons a as ih =>
    cases bs with
    | nil => simp [sameAll] at h
    | cons b bs =>
      obtain ⟨hab, hrest⟩ := Bool.and_eq_true_iff.mp h
      simp only [List.mem_cons, exists_eq_or_imp, equal_of_same hab v, ih hrest]

end Literal

namespace Schema

/-- No object of the schema declares a property twice. -/
inductive Proper : Schema → Prop
  | null : Proper .null
  | boolean : Proper .boolean
  | integer : Proper .integer
  | number : Proper .number
  | string : Proper .string
  | enum (values : List Literal) : Proper (.enum values)
  | anyArray : Proper .anyArray
  | array {items : Schema} : Proper items → Proper (.array items)
  | mapping {rest : Additional Schema} : (∀ s, rest = .each s → Proper s) → Proper (.mapping rest)
  | object {properties : List (String × Schema)} {required : List String}
      {rest : Additional Schema} : (properties.map Prod.fst).Nodup →
      (∀ p ∈ properties, Proper p.2) → (∀ s, rest = .each s → Proper s) →
      Proper (.object properties required rest)
  | anyOf {variants : List Schema} : (∀ s ∈ variants, Proper s) → Proper (.anyOf variants)

theorem sameProperties_iff {ps qs : List (String × Schema)} :
    sameProperties ps qs = true ↔
      ∀ p ∈ ps, ∃ t, Table.find? qs p.1 = some t ∧ same p.2 t = true := by
  induction ps with
  | nil => simp [sameProperties]
  | cons p ps ih =>
    obtain ⟨k, s⟩ := p
    rw [sameProperties, Bool.and_eq_true, ih, List.forall_mem_cons]
    cases Table.find? qs k <;> simp

theorem accepts_of_sameAll {as bs : List Schema} {v : Json}
    (ih : ∀ a ∈ as, ∀ b, same a b = true → (a.Accepts v ↔ b.Accepts v))
    (h : sameAll as bs = true) : (∃ s ∈ as, s.Accepts v) ↔ ∃ s ∈ bs, s.Accepts v := by
  induction as generalizing bs with
  | nil =>
    cases bs with
    | nil => rfl
    | cons b bs => simp [sameAll] at h
  | cons a as ihas =>
    cases bs with
    | nil => simp [sameAll] at h
    | cons b bs =>
      rw [sameAll] at h
      obtain ⟨hab, hrest⟩ := Bool.and_eq_true_iff.mp h
      simp only [List.mem_cons, exists_eq_or_imp, ih a List.mem_cons_self b hab,
        ihas (fun a ha => ih a (List.mem_cons_of_mem _ ha)) hrest]

theorem accepts_of_sameAdditional {a b : Additional Schema} {v : Json}
    (ih : ∀ s, a = .each s → ∀ t, same s t = true → (s.Accepts v ↔ t.Accepts v))
    (h : sameAdditional a b = true) : a.Accepts v ↔ b.Accepts v := by
  cases a with
  | anything => cases b <;> simp_all [sameAdditional, Additional.Accepts]
  | nothing => cases b <;> simp_all [sameAdditional, Additional.Accepts]
  | each s =>
    cases b with
    | each t => exact ih s rfl t (by simpa [sameAdditional] using h)
    | anything | nothing => simp [sameAdditional] at h

/-- Under each name there is the same property or none. -/
theorem find?_of_sameProperties {ps qs : List (String × Schema)} (hlen : ps.length = qs.length)
    (hn : (ps.map Prod.fst).Nodup) (h : sameProperties ps qs = true) (k : String) :
    (Table.find? ps k = none ∧ Table.find? qs k = none) ∨
      ∃ s t, Table.find? ps k = some s ∧ Table.find? qs k = some t ∧ (k, s) ∈ ps ∧
        same s t = true := by
  rw [sameProperties_iff] at h
  have hsub : ps.map Prod.fst ⊆ qs.map Prod.fst := by
    intro k hk
    obtain ⟨p, hp, rfl⟩ := List.mem_map.mp hk
    obtain ⟨t, ht, -⟩ := h p hp
    exact Table.mem_keys_of_find? ht
  have hperm : (ps.map Prod.fst).Perm (qs.map Prod.fst) :=
    (hn.subperm hsub).perm_of_length_le (by simp [hlen])
  cases hs : Table.find? ps k with
  | none =>
    refine Or.inl ⟨rfl, ?_⟩
    rw [Table.find?_eq_none_iff] at hs ⊢
    exact fun hk => hs (hperm.mem_iff.mpr hk)
  | some s =>
    have hmem := Table.mem_of_find? hs
    obtain ⟨t, ht, hst⟩ := h (k, s) hmem
    exact Or.inr ⟨s, t, rfl, ht, hmem, hst⟩

/-- Schemas that count as the same accept the same values. -/
theorem accepts_of_same {a b : Schema} (ha : a.Proper) (h : same a b = true) (v : Json) :
    a.Accepts v ↔ b.Accepts v := by
  induction a generalizing b v with
  | null | boolean | integer | number | string | anyArray =>
    cases b <;> cases h
    rfl
  | enum values =>
    cases b with
    | enum others =>
      rw [accepts_enum, accepts_enum]
      exact Literal.exists_equal_of_sameAll (by simpa [same] using h) v
    | _ => simp [same] at h
  | array items ih =>
    cases b with
    | array other =>
      cases ha with
      | array hitems =>
        rw [same] at h
        simp only [accepts_array, ih hitems h]
    | _ => simp [same] at h
  | mapping rest ih =>
    cases b with
    | mapping other =>
      cases ha with
      | mapping hrest =>
        rw [same] at h
        have hacc := fun w => accepts_of_sameAdditional (v := w)
          (fun s hs t hst => ih s hs (hrest s hs) hst w) h
        simp only [accepts_mapping, hacc]
    | _ => simp [same] at h
  | object ps required rest ihp ihr =>
    cases b with
    | object qs others other =>
      cases ha with
      | object hn hps hrest =>
        simp only [same, Bool.and_eq_true, beq_iff_eq] at h
        obtain ⟨⟨⟨hlen, hprops⟩, rfl⟩, hadd⟩ := h
        have hacc := fun w => accepts_of_sameAdditional (v := w)
          (fun s hs t hst => ihr s hs (hrest s hs) hst w) hadd
        have hfind := find?_of_sameProperties hlen hn hprops
        have hdeclared (k : String) : k ∉ ps.map Prod.fst ↔ k ∉ qs.map Prod.fst := by
          have hps := @Table.find?_eq_none_iff _ _ _ ps k
          have hqs := @Table.find?_eq_none_iff _ _ _ qs k
          unfold Table.keys at hps hqs
          rw [← hps, ← hqs]
          rcases hfind k with ⟨hs, ht⟩ | ⟨s, t, hs, ht, -⟩ <;> simp [hs, ht]
        have hvalue (p : String × Json) : (∀ s, Table.find? ps p.1 = some s → s.Accepts p.2) ↔
            ∀ t, Table.find? qs p.1 = some t → t.Accepts p.2 := by
          rcases hfind p.1 with ⟨hs, ht⟩ | ⟨s, t, hs, ht, hmem, hst⟩
          · simp [hs, ht]
          · have hiff := ihp (p.1, s) hmem (hps (p.1, s) hmem) hst p.2
            simpa [hs, ht] using hiff
        simp only [accepts_object, hdeclared, hvalue, hacc]
    | _ => simp [same] at h
  | anyOf variants ih =>
    cases b with
    | anyOf others =>
      cases ha with
      | anyOf hvariants =>
        rw [same] at h
        rw [accepts_anyOf, accepts_anyOf]
        exact accepts_of_sameAll (fun s hs t hst => ih s hs (hvariants s hs) hst v) h
    | _ => simp [same] at h

/-- Alternatives without repeated properties that together accept the values with `P`. -/
structure Alternatives (variants : List Schema) (P : Json → Prop) : Prop where
  proper : ∀ s ∈ variants, s.Proper
  accepts : ∀ v, (∃ s ∈ variants, s.Accepts v) ↔ P v

namespace Alternatives

variable {variants : List Schema} {P : Json → Prop}

theorem addVariant (h : Alternatives variants P) {s : Schema} (hs : s.Proper) :
    Alternatives (addVariant variants s) fun v => P v ∨ s.Accepts v := by
  unfold Schema.addVariant
  split
  · rename_i hany
    obtain ⟨t, ht, hsame⟩ := List.any_eq_true.mp hany
    refine ⟨h.proper, fun v => ?_⟩
    rw [h.accepts, ← accepts_of_same (h.proper t ht) hsame v]
    exact ⟨Or.inl, fun hv => hv.elim id fun hv => (h.accepts v).mp ⟨t, ht, hv⟩⟩
  · refine ⟨fun t ht => ?_, fun v => ?_⟩
    · rcases List.mem_append.mp ht with ht | ht
      · exact h.proper t ht
      · exact List.mem_singleton.mp ht ▸ hs
    · simp [← h.accepts, or_and_right, exists_or]

/-- What one step does for one schema, all steps do for a list of schemas. -/
theorem foldl {step : List Schema → Schema → List Schema}
    (hstep : ∀ variants P s, Alternatives variants P → s.Proper →
      Alternatives (step variants s) fun v => P v ∨ s.Accepts v)
    (h : Alternatives variants P) {ss : List Schema} (hss : ∀ s ∈ ss, s.Proper) :
    Alternatives (ss.foldl step variants) fun v => P v ∨ ∃ s ∈ ss, s.Accepts v := by
  induction ss generalizing variants P with
  | nil => simpa using h
  | cons s ss ih =>
    obtain ⟨hs, hss⟩ := List.forall_mem_cons.mp hss
    have hrest := ih (hstep variants P s h hs) hss
    simpa [or_assoc] using hrest

/-- Alternatives of alternatives accept the same values on their own. -/
theorem absorb (h : Alternatives variants P) {s : Schema} (hs : s.Proper) :
    Alternatives (absorb variants s) fun v => P v ∨ s.Accepts v := by
  cases hs with
  | anyOf hnested =>
    simp only [accepts_anyOf]
    exact h.foldl (fun _ _ _ h hs => h.addVariant hs) hnested
  | _ => exact h.addVariant (by constructor <;> assumption)

end Alternatives

theorem alternatives_unite {ss : List Schema} (h : ∀ s ∈ ss, s.Proper) :
    Alternatives (ss.foldl absorb []) fun v => ∃ s ∈ ss, s.Accepts v := by
  have hnil : Alternatives [] fun _ => False := ⟨by simp, by simp⟩
  simpa using hnil.foldl (fun _ _ _ h hs => h.absorb hs) h

theorem proper_unite {ss : List Schema} (h : ∀ s ∈ ss, s.Proper) : (unite ss).Proper :=
  .anyOf (alternatives_unite h).proper

/-- A union accepts what some member accepts. -/
theorem accepts_unite {ss : List Schema} (h : ∀ s ∈ ss, s.Proper) {v : Json} :
    (unite ss).Accepts v ↔ ∃ s ∈ ss, s.Accepts v :=
  accepts_anyOf.trans ((alternatives_unite h).accepts v)

/-- Each value has one of the JSON types. -/
theorem accepts_any (v : Json) : any.Accepts v := by
  rw [any, accepts_anyOf]
  cases v with
  | null => exact ⟨.null, by simp, accepts_null.mpr rfl⟩
  | bool b => exact ⟨.boolean, by simp, accepts_boolean.mpr ⟨b, rfl⟩⟩
  | int i => exact ⟨.number, by simp, accepts_number.mpr (.inl ⟨i, rfl⟩)⟩
  | float x => exact ⟨.number, by simp, accepts_number.mpr (.inr ⟨x, rfl⟩)⟩
  | str s => exact ⟨.string, by simp, accepts_string.mpr ⟨s, rfl⟩⟩
  | arr vs => exact ⟨.anyArray, by simp, accepts_anyArray.mpr ⟨vs, rfl⟩⟩
  | obj ms => exact ⟨.mapping .anything, by simp, accepts_mapping.mpr ⟨ms, rfl, fun _ _ => trivial⟩⟩

end Schema

end CallSchema
