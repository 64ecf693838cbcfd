import CallSchema.Proofs.Acceptance
import CallSchema.Proofs.Pointwise
import CallSchema.Proofs.Signatures
import CallSchema.SyntaxTree.Build

/-! # The normal form of schemas

Alternatives are never nested, never equal and never missing, enumerations are never empty, and an
object either declares its properties completely or not at all. Every schema of a compilation has
this form at every depth; only the schema of arguments may be open at its root.
-/

namespace CallSchema

namespace Schema

/-- Whether two schemas count as different, whichever is compared with the other. -/
def Differ (a b : Schema) : Prop :=
  same a b = false ∧ same b a = false

def isUnion : Schema → Bool
  | .anyOf _ => true
  | _ => false

/-- The form that schemas have below the root. -/
inductive Normal : Schema → Prop
  | null : Normal .null
  | boolean : Normal .boolean
  | integer : Normal .integer
  | number : Normal .number
  | string : Normal .string
  | enum {values : List Literal} : values ≠ [] → Normal (.enum values)
  | anyArray : Normal .anyArray
  | array {items : Schema} : Normal items → Normal (.array items)
  | anyObject : Normal (.mapping .anything)
  | map {values : Schema} : Normal values → Normal (.mapping (.each values))
  | record {properties : List (String × Schema)} {required : List String} :
      (properties.map Prod.fst).Nodup → (∀ p ∈ properties, Normal p.2) →
      required = properties.map Prod.fst ∨ required = [] →
      Normal (.object properties required .nothing)
  | anyOf {variants : List Schema} : variants ≠ [] → variants.Pairwise Differ →
      (∀ s ∈ variants, s.isUnion = false) → (∀ s ∈ variants, Normal s) → Normal (.anyOf variants)

/-- The form of the schema of arguments: it is normal below its root, requires only what it declares
and says what else there may be. -/
inductive NormalInput : Schema → Prop
  | object {properties : List (String × Schema)} {required : List String}
      {rest : Additional Schema} : (∀ p ∈ properties, p.2.Normal) →
      required ⊆ properties.map Prod.fst → rest = .nothing ∨ (∃ s, rest = .each s ∧ s.Normal) →
      NormalInput (.object properties required rest)

theorem Normal.proper {s : Schema} (h : s.Normal) : s.Proper := by
  induction h with
  | null => exact .null
  | boolean => exact .boolean
  | integer => exact .integer
  | number => exact .number
  | string => exact .string
  | enum => exact .enum _
  | anyArray => exact .anyArray
  | array _ ih => exact .array ih
  | anyObject => exact .mapping fun s hs => by cases hs
  | map _ ih =>
    refine .mapping ?_
    rintro s ⟨⟩
    exact ih
  | record hn _ _ ih => exact .object hn ih fun s hs => by cases hs
  | anyOf _ _ _ _ ih => exact .anyOf ih

end Schema

theorem Binary64.numEq_comm (x y : Binary64) : x.numEq y = y.numEq x := by
  by_cases h : x = y
  · rw [h]
  · have hxy : (x == y) = false := beq_eq_false_iff_ne.mpr h
    have hyx : (y == x) = false := beq_eq_false_iff_ne.mpr (Ne.symm h)
    rw [numEq, numEq, hxy, hyx, Bool.and_comm x.isZero]
    rfl

theorem Literal.same_comm (a b : Literal) : same a b = same b a := by
  cases a with
  | float x =>
    cases b with
    | float y => exact x.numEq_comm y
    | _ => rfl
  | _ => cases b <;> simp [same, eq_comm]

theorem Literal.sameAll_comm (as bs : List Literal) : sameAll as bs = sameAll bs as := by
  induction as generalizing bs with
  | nil => cases bs <;> rfl
  | cons a as ih =>
    cases bs with
    | nil => rfl
    | cons b bs => rw [sameAll, sameAll, same_comm, ih]

namespace Schema

theorem sameAll_symm {as bs : List Schema}
    (ih : ∀ a ∈ as, ∀ b ∈ bs, same a b = true → same b a = true) (h : sameAll as bs = true) :
    sameAll bs as = true := by
  induction as generalizing bs with
  | nil =>
    cases bs with
    | nil => rfl
    | cons b bs => simp [sameAll] at h
  | cons a as ihas =>
    cases bs with
    | nil => simp [sameAll] at h
    | cons b bs =>
      rw [sameAll, Bool.and_eq_true] at h ⊢
      refine ⟨ih a List.mem_cons_self b List.mem_cons_self h.1, ihas (fun a ha b hb => ?_) h.2⟩
      exact ih a (List.mem_cons_of_mem _ ha) b (List.mem_cons_of_mem _ hb)

theorem sameAdditional_symm {a b : Additional Schema}
    (ih : ∀ s t, a = .each s → b = .each t → same s t = true → same t s = true)
    (h : sameAdditional a b = true) : sameAdditional b a = true := by
  cases a with
  | each s =>
    cases b with
    | each t =>
      rw [sameAdditional] at h ⊢
      exact ih s t rfl rfl h
    | _ => simp [sameAdditional] at h
  | _ => cases b <;> simp_all [sameAdditional]

theorem sameProperties_symm {ps qs : List (String × Schema)} (hlen : ps.length = qs.length)
    (hps : (ps.map Prod.fst).Nodup) (hqs : (qs.map Prod.fst).Nodup)
    (ih : ∀ p ∈ ps, ∀ q ∈ qs, same p.2 q.2 = true → same q.2 p.2 = true)
    (h : sameProperties ps qs = true) : sameProperties qs ps = true := by
  rw [sameProperties_iff]
  intro q hq
  have hfind : Table.find? qs q.1 = some q.2 := Table.find?_of_mem hqs hq
  rcases find?_of_sameProperties hlen hps h q.1 with ⟨-, hnone⟩ | ⟨s, t, hs, ht, hmem, hsame⟩
  · rw [hfind] at hnone
    cases hnone
  · cases hfind.symm.trans ht
    exact ⟨s, hs, ih _ hmem q hq hsame⟩

/-- Which of two schemas is compared with the other does not matter. -/
theorem same_symm {a b : Schema} (ha : a.Proper) (hb : b.Proper) (h : same a b = true) :
    same b a = true := by
  induction a generalizing b with
  | null | boolean | integer | number | string | anyArray =>
    cases b <;> cases h
    rfl
  | enum values =>
    cases b with
    | enum others => rwa [same, Literal.sameAll_comm]
    | _ => simp [same] at h
  | array items ih =>
    cases b with
    | array other =>
      cases ha with
      | array hitems =>
        cases hb with
        | array hother =>
          rw [same] at h ⊢
          exact ih hitems hother h
    | _ => simp [same] at h
  | mapping rest ih =>
    cases b with
    | mapping other =>
      cases ha with
      | mapping hrest =>
        cases hb with
        | mapping hother =>
          rw [same] at h ⊢
          exact sameAdditional_symm (fun s t hs ht => ih s hs (hrest s hs) (hother t ht)) h
    | _ => simp [same] at h
  | object ps required rest ihp ihr =>
    cases b with
    | object qs others other =>
      cases ha with
      | object hps hproper hrest =>
        cases hb with
        | object hqs hproper' hother =>
          simp only [same, Bool.and_eq_true, beq_iff_eq] at h ⊢
          obtain ⟨⟨⟨hlen, hprops⟩, rfl⟩, hadd⟩ := h
          refine ⟨⟨⟨hlen.symm, ?_⟩, rfl⟩, ?_⟩
          · exact sameProperties_symm hlen hps hqs
              (fun p hp q hq => ihp p hp (hproper p hp) (hproper' q hq)) hprops
          · exact sameAdditional_symm (fun s t hs ht => ihr s hs (hrest s hs) (hother t ht)) hadd
    | _ => simp [same] at h
  | anyOf variants ih =>
    cases b with
    | anyOf others =>
      cases ha with
      | anyOf hvariants =>
        cases hb with
        | anyOf hothers =>
          rw [same] at h ⊢
          exact sameAll_symm (fun s hs t ht => ih s hs (hvariants s hs) (hothers t ht)) h
    | _ => simp [same] at h

theorem differ_of_not_same {a b : Schema} (ha : a.Normal) (hb : b.Normal)
    (h : same a b = false) : Differ a b := by
  refine ⟨h, Bool.eq_false_iff.mpr fun hba => ?_⟩
  rw [same_symm hb.proper ha.proper hba] at h
  cases h

/-- Alternatives in normal form, of which there may be none yet. -/
structure NormalVariants (variants : List Schema) : Prop where
  differ : variants.Pairwise Differ
  flat : ∀ s ∈ variants, s.isUnion = false
  normal : ∀ s ∈ variants, s.Normal

theorem normalVariants_nil : NormalVariants [] :=
  ⟨.nil, by simp, by simp⟩

theorem addVariant_ne_nil (variants : List Schema) (s : Schema) : addVariant variants s ≠ [] := by
  unfold addVariant
  split
  · rintro rfl
    simp_all
  · simp

theorem NormalVariants.addVariant {variants : List Schema} (h : NormalVariants variants)
    {s : Schema} (hs : s.Normal) (hflat : s.isUnion = false) :
    NormalVariants (addVariant variants s) := by
  unfold Schema.addVariant
  split
  · exact h
  · rename_i hany
    rw [List.any_eq_true] at hany
    refine ⟨List.pairwise_append.mpr ⟨h.differ, List.pairwise_singleton _ _, ?_⟩, ?_, ?_⟩
    · intro a ha b hb
      obtain rfl := List.mem_singleton.mp hb
      refine differ_of_not_same (h.normal a ha) hs (Bool.eq_false_iff.mpr fun hsame => ?_)
      exact hany ⟨a, ha, hsame⟩
    · intro a ha
      rcases List.mem_append.mp ha with ha | ha
      · exact h.flat a ha
      · exact List.mem_singleton.mp ha ▸ hflat
    · intro a ha
      rcases List.mem_append.mp ha with ha | ha
      · exact h.normal a ha
      · exact List.mem_singleton.mp ha ▸ hs

theorem foldl_ne_nil {step : List Schema → Schema → List Schema} {ss : List Schema}
    (hstep : ∀ variants, ∀ s ∈ ss, step variants s ≠ []) (hss : ss ≠ []) (variants : List Schema) :
    ss.foldl step variants ≠ [] := by
  obtain ⟨init, last, rfl⟩ := (List.eq_nil_or_concat' ss).resolve_left hss
  rw [List.foldl_append]
  exact hstep _ last (by simp)

/-- A schema in normal form adds at least one alternative or is there already. -/
theorem absorb_ne_nil {s : Schema} (hs : s.Normal) (variants : List Schema) :
    absorb variants s ≠ [] := by
  cases hs with
  | anyOf hne => exact foldl_ne_nil (fun variants s _ => addVariant_ne_nil variants s) hne variants
  | _ => exact addVariant_ne_nil variants _

theorem NormalVariants.absorb {variants : List Schema} (h : NormalVariants variants) {s : Schema}
    (hs : s.Normal) : NormalVariants (absorb variants s) := by
  cases hs with
  | anyOf _ _ hflat hnormal =>
    exact List.foldlRecOn _ _ h fun _ h s hs => h.addVariant (hnormal s hs) (hflat s hs)
  | _ => exact h.addVariant (by constructor <;> assumption) rfl

theorem normal_unite {ss : List Schema} (hss : ss ≠ []) (h : ∀ s ∈ ss, s.Normal) :
    (unite ss).Normal := by
  have hvariants : NormalVariants (ss.foldl Schema.absorb []) :=
    List.foldlRecOn _ _ normalVariants_nil fun _ hv s hs => hv.absorb (h s hs)
  have hne : ss.foldl Schema.absorb [] ≠ [] :=
    foldl_ne_nil (fun variants s hs => absorb_ne_nil (h s hs) variants) hss []
  exact .anyOf hne hvariants.differ hvariants.flat hvariants.normal

theorem normal_any : any.Normal := by
  refine .anyOf (by simp) ?_ (by decide) ?_
  · simp [Differ, same]
  · intro s hs
    simp only [List.mem_cons, List.not_mem_nil, or_false] at hs
    rcases hs with rfl | rfl | rfl | rfl | rfl | rfl | rfl <;> constructor

theorem normal_ofPrimitive (p : Primitive) : (ofPrimitive p).Normal := by
  cases p <;> constructor

end Schema

section

variable {env : Environment} {hops : Nat} {m : ModulePath}

/-- What resolves is normal if every union and literal type has a member. -/
theorem Resolves.normal (htabular : env.Tabular) (hfilled : env.All Definition.Filled)
    {e : TypeExpr} {s : Schema} (h : Resolves env hops m e s) (he : e.Filled) : s.Normal := by
  induction h with
  | primitive m p => exact Schema.normal_ofPrimitive p
  | none m => exact .null
  | any m => exact Schema.normal_any
  | list _ ih =>
    cases he with
    | atom hatom => cases hatom
    | list hitem => exact .array (ih hitem)
  | dict _ _ _ ih =>
    cases he with
    | atom hatom => cases hatom
    | dict _ hvalue => exact .map (ih hvalue)
  | optional _ ih =>
    cases he with
    | atom hatom => cases hatom
    | optional hinner =>
      refine Schema.normal_unite (by simp) fun s hs => ?_
      simp only [List.mem_cons, List.not_mem_nil, or_false] at hs
      rcases hs with rfl | rfl
      · exact ih hinner
      · exact .null
  | union hlen _ ih =>
    cases he with
    | atom hatom => cases hatom
    | union hne hmembers =>
      refine Schema.normal_unite ?_ fun s hs => ?_
      · rintro rfl
        exact hne (List.eq_nil_of_length_eq_zero hlen)
      · obtain ⟨e, hp⟩ := exists_mem_zip_right hlen hs
        exact ih _ hp (hmembers e (List.of_mem_zip hp).1)
  | literal m values =>
    cases he with
    | atom hatom => cases hatom
    | literal hne => exact .enum (by simpa using hne)
  | ofAlias hl _ ih => exact ih (hfilled _ _ (Environment.lookup_found hl))
  | @ofRecord m name key r ss hl hlen _ ih =>
    have hfields := hfilled _ _ (Environment.lookup_found hl)
    have hkeys : (r.fields.keys.zip ss).map Prod.fst = r.fields.keys :=
      keys_properties (by rwa [List.length_map] at hlen)
    refine .record ?_ (fun p hp => ?_) ?_
    · rw [hkeys]
      exact htabular _ _ (Environment.lookup_found hl)
    · obtain ⟨e, he⟩ := exists_mem_zip_right hlen (List.of_mem_zip hp).2
      obtain ⟨field, hfield, rfl⟩ := List.mem_map.mp (List.of_mem_zip he).1
      exact ih _ he (hfields field hfield)
    · rw [hkeys]
      cases r.total
      · exact .inr rfl
      · exact .inl rfl

end

/-- The form of the schema of arguments while it is being built. -/
structure InputSchema.Normal (i : InputSchema) : Prop where
  properties : ∀ p ∈ i.properties, p.2.Normal
  required : i.required ⊆ i.properties.keys
  rest : i.rest = .nothing ∨ ∃ s, i.rest = .each s ∧ s.Normal

namespace InputSchema

theorem normal_empty : InputSchema.empty.Normal :=
  ⟨fun _ hp => absurd hp List.not_mem_nil, List.nil_subset _, .inl rfl⟩

theorem Normal.declare {i : InputSchema} (h : i.Normal) (p : Parameter) {s : Schema}
    (hs : s.Normal) :
    ({ i with
      properties := i.properties.enter p.name s
      required := if p.isRequired then i.required ++ [p.name] else i.required } :
      InputSchema).Normal := by
  refine ⟨fun q hq => ?_, fun k hk => Table.mem_keys_enter.mpr ?_, h.rest⟩
  · rcases Table.mem_enter hq with hq | rfl
    · exact h.properties q hq
    · exact hs
  · split at hk
    · rcases List.mem_append.mp hk with hk | hk
      · exact .inl (h.required hk)
      · exact .inr (List.mem_singleton.mp hk)
    · exact .inl (h.required hk)

theorem Normal.add {i : InputSchema} (h : i.Normal) (p : Parameter) {s : Schema} (hs : s.Normal) :
    (i.add p s).Normal := by
  unfold InputSchema.add
  split
  · exact ⟨h.properties, h.required, .inr ⟨s, rfl, hs⟩⟩
  · exact h.declare p hs

theorem Normal.toSchema {i : InputSchema} (h : i.Normal) : i.toSchema.NormalInput :=
  .object h.properties h.required h.rest

end InputSchema

section

variable {env : Environment} {hops : Nat}

theorem compileParameters_normal (htabular : env.Tabular) (hfilled : env.All Definition.Filled)
    {m : ModulePath} {ps : List Parameter} (hps : ∀ p ∈ ps, p.type.Filled) {i out : InputSchema}
    (hi : i.Normal) (h : Direct.compileParameters env hops m i ps = .ok out) : out.Normal := by
  induction ps generalizing i with
  | nil =>
    cases h
    exact hi
  | cons p ps ih =>
    obtain ⟨hp, hps⟩ := List.forall_mem_cons.mp hps
    obtain ⟨s, hs, hrest⟩ := bind_eq_ok.mp h
    exact ih hps (hi.add p ((Direct.resolve_eq_ok_iff.mp hs).normal htabular hfilled hp)) hrest

/-- The schemas of a signature whose union and literal types have members are normal. -/
theorem compileFunction_normal (htabular : env.Tabular) (hfilled : env.All Definition.Filled)
    {s : Signature} (hps : ∀ p ∈ s.parameters, p.type.Filled) (hreturns : s.returns.Filled)
    {f : FunctionSchema} (h : Direct.compileFunction env hops s = .ok f) :
    f.input.NormalInput ∧ f.output.Normal := by
  obtain ⟨i, hi, h⟩ := bind_eq_ok.mp h
  obtain ⟨output, houtput, h⟩ := bind_eq_ok.mp h
  cases h
  have hinput := compileParameters_normal htabular hfilled hps InputSchema.normal_empty hi
  exact ⟨hinput.toSchema, (Direct.resolve_eq_ok_iff.mp houtput).normal htabular hfilled hreturns⟩

end

/-- Every schema of a compilation is in normal form, that of the arguments below its root. -/
theorem ScanTarget.compile_normal (t : ScanTarget) (filter : NameFilter) (hops : Nat) :
    ∀ entry ∈ (t.compile filter hops).schemas,
      entry.2.input.NormalInput ∧ entry.2.output.Normal := by
  intro entry hentry
  obtain ⟨s, -, -, houtcome⟩ := ScanTarget.exists_outcome hentry
  obtain ⟨signature, hsignature, hcompile⟩ := Selected.outcome_eq_ok houtcome
  obtain ⟨hparameters, hreturns⟩ := Extraction.filled_of_signature hsignature
  exact compileFunction_normal t.environment_tabular t.environment_filled hparameters hreturns
    hcompile

/-- A module with a record type and a function that moves such a record. -/
def ScanTarget.moving : ScanTarget :=
  let optional (e : Expression) : Expression := .subscript (.name "Optional") e
  let union (es : List Expression) : Expression := .subscript (.name "Union") (.tuple es)
  .ofModule ⟨⟨"moving"⟩, false, ⟨[
    .importFrom (some "typing") 0
      [.plain "Literal", .plain "Optional", .plain "TypedDict", .plain "Union"],
    .plainClass "Point" [.name "TypedDict"]
      [.field "x" (.name "int"), .field "y" (optional (.name "float"))],
    .function "move"
      { Arguments.ofPositional
          [.typed "start" (.name "Point"),
            .typed "to" (union [.name "Point", .name "str", optional (.name "Point")])] with
        keywordOnly := [.withDefault (.typed "how" (.subscript (.name "Literal") (.text "fast")))]
        keywords := some (.typed "more" (.name "int")) }
      (some (optional (.name "Point")))]⟩, false⟩ []

/-- The schemas of `move`. -/
def FunctionSchema.move : FunctionSchema :=
  let point : Schema := .record [("x", .integer), ("y", .anyOf [.number, .null])] ["x", "y"]
  { input := .object
      [("start", point), ("to", .anyOf [point, .string, .null]), ("how", .enum [.str "fast"])]
      ["start", "to"] (.each .integer)
    output := .anyOf [point, .null] }

theorem ScanTarget.compile_normal_moving :
    (moving.compile .allowAll 16).schemas = [("move", .move)] ∧
      FunctionSchema.move.input.NormalInput ∧ FunctionSchema.move.output.Normal := by
  have hschemas : (moving.compile .allowAll 16).schemas = [("move", .move)] := rfl
  refine ⟨hschemas, compile_normal moving .allowAll 16 ("move", .move) ?_⟩
  rw [hschemas]
  exact List.mem_singleton.mpr rfl

end CallSchema
