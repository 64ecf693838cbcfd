import Mathlib.Data.List.Zip
import CallSchema.Proofs.Acceptance
import CallSchema.Proofs.Declarations
import CallSchema.Proofs.Memo

/-! # The values of a type expression

What JSON values a type expression stands for, said without schemas. Resolution preserves this
meaning: the document of the schema admits exactly the values of the expression.
-/

namespace CallSchema

/-- Whether a JSON value is the literal. -/
def Literal.Denotes : Literal → Json → Prop
  | .null, v => v = .null
  | .bool b, v => v = .bool b
  | .int i, v => v.number? = some (i.toInt * Json.one)
  | .float x, v => ∃ n, x.value? = some n ∧ v.number? = some n
  | .str s, v => v = .str s

/-- The JSON values of a type expression written in module `m`. -/
inductive Inhabits (env : Environment) (hops : Nat) : ModulePath → TypeExpr → Json → Prop
  | bool (m : ModulePath) (b : Bool) : Inhabits env hops m (.primitive .bool) (.bool b)
  | int {m : ModulePath} {v : Json} : v.isWhole = true → Inhabits env hops m (.primitive .int) v
  | wholeFloat (m : ModulePath) (i : Int) : Inhabits env hops m (.primitive .float) (.int i)
  | float (m : ModulePath) (x : Binary64) : Inhabits env hops m (.primitive .float) (.float x)
  | str (m : ModulePath) (s : String) : Inhabits env hops m (.primitive .str) (.str s)
  | none (m : ModulePath) : Inhabits env hops m .none .null
  | any (m : ModulePath) (v : Json) : Inhabits env hops m .any v
  | list {m : ModulePath} {item : TypeExpr} {vs : List Json} :
      (∀ v ∈ vs, Inhabits env hops m item v) → Inhabits env hops m (.list item) (.arr vs)
  | dict {m : ModulePath} {key value : TypeExpr} {ms : List (String × Json)} :
      (∀ p ∈ ms, Inhabits env hops m value p.2) → Inhabits env hops m (.dict key value) (.obj ms)
  | absent (m : ModulePath) (inner : TypeExpr) : Inhabits env hops m (.optional inner) .null
  | present {m : ModulePath} {inner : TypeExpr} {v : Json} : Inhabits env hops m inner v →
      Inhabits env hops m (.optional inner) v
  | union {m : ModulePath} {es : List TypeExpr} {e : TypeExpr} {v : Json} : e ∈ es →
      Inhabits env hops m e v → Inhabits env hops m (.union es) v
  | literal {m : ModulePath} {members : List LiteralMember} {l : Literal} {v : Json} :
      .value l ∈ members → l.Denotes v → Inhabits env hops m (.literal members) v
  | ofAlias {m : ModulePath} {name : String} {key : TypeKey} {body : TypeExpr} {v : Json} :
      env.lookup hops ⟨m, name⟩ = .found key (.alias body) → Inhabits env hops key.module body v →
      Inhabits env hops m (.reference name) v
  | ofRecord {m : ModulePath} {name : String} {key : TypeKey} {r : RecordType}
      {ms : List (String × Json)} : env.lookup hops ⟨m, name⟩ = .found key (.record r) →
      (∀ p ∈ ms, p.1 ∈ r.fields.keys) →
      (∀ field ∈ r.fields, ∀ p ∈ ms, p.1 = field.1 → Inhabits env hops key.module field.2 p.2) →
      (r.total = true → ∀ k ∈ r.fields.keys, k ∈ ms.map Prod.fst) →
      Inhabits env hops m (.reference name) (.obj ms)

mutual

/-- The members of all literal types in a type expression. -/
def TypeExpr.literalMembers : TypeExpr → List LiteralMember
  | .list item => item.literalMembers
  | .dict key value => key.literalMembers ++ value.literalMembers
  | .optional inner => inner.literalMembers
  | .union members => TypeExpr.literalMembersAll members
  | .literal members => members
  | .primitive _ | .none | .any | .reference _ | .external _ | .unsupported _ => []

def TypeExpr.literalMembersAll : List TypeExpr → List LiteralMember
  | [] => []
  | e :: es => e.literalMembers ++ TypeExpr.literalMembersAll es

end

theorem TypeExpr.mem_literalMembersAll {l : LiteralMember} {es : List TypeExpr} :
    l ∈ TypeExpr.literalMembersAll es ↔ ∃ e ∈ es, l ∈ e.literalMembers := by
  induction es with
  | nil => simp [literalMembersAll]
  | cons e es ih => simp [literalMembersAll, ih]

/-- Whether all doubles among literals are finite. -/
def FiniteLiterals (members : List LiteralMember) : Prop :=
  ∀ x, .value (.float x) ∈ members → x.isFinite = true

theorem FiniteLiterals.mono {as bs : List LiteralMember} (h : FiniteLiterals bs) (hs : as ⊆ bs) :
    FiniteLiterals as :=
  fun x hx => h x (hs hx)

def Definition.literalMembers : Definition → List LiteralMember
  | .alias body => body.literalMembers
  | .record r => TypeExpr.literalMembersAll (r.fields.map Prod.snd)
  | .invalid _ => []

/-- What definitions must be for their schemas to have a meaning: the fields of a record form a
table, and the doubles in literal types are numbers. -/
structure Environment.Meaningful (env : Environment) : Prop where
  tabular : env.Tabular
  finite : ∀ key d, env.catalog.find? key = some d → FiniteLiterals d.literalMembers

/-- Of what a target declares only the doubles are in question. -/
theorem ScanTarget.environment_meaningful {t : ScanTarget}
    (h : ∀ key d, t.environment.catalog.find? key = some d → FiniteLiterals d.literalMembers) :
    t.environment.Meaningful :=
  ⟨t.environment_tabular, h⟩

variable {env : Environment} {hops : Nat}

theorem Json.sameNumber_iff {a b : Json} :
    a.sameNumber b = true ↔ ∃ n, a.number? = some n ∧ b.number? = some n := by
  unfold sameNumber
  cases a.number? with
  | none => simp
  | some x =>
    cases b.number? with
    | none => simp
    | some y =>
      simp only [beq_iff_eq, Option.some.injEq, exists_eq_left']
      exact eq_comm

/-- What a literal is rendered as equals the values it denotes. -/
theorem Literal.equal_toJson_iff {l : Literal} (h : ∀ x, l = .float x → x.isFinite = true)
    (v : Json) : l.toJson.equal v = true ↔ l.Denotes v := by
  cases l with
  | null => cases v <;> simp [toJson, Denotes, Json.equal, Json.sameNumber, Json.number?]
  | bool b =>
    cases v with
    | bool c => simp [toJson, Denotes, Json.equal, @eq_comm _ b c]
    | _ => simp [toJson, Denotes, Json.equal, Json.sameNumber, Json.number?]
  | str s =>
    cases v with
    | str t => simp [toJson, Denotes, Json.equal, @eq_comm _ s t]
    | _ => simp [toJson, Denotes, Json.equal, Json.sameNumber, Json.number?]
  | int i =>
    have hequal : Json.equal (.int i.toInt) v = Json.sameNumber (.int i.toInt) v := by
      cases v <;> rfl
    rw [toJson, hequal, Json.sameNumber_iff]
    simp [Denotes, Json.number?]
  | float x =>
    rw [toJson, Json.ofBinary64, if_pos (h x rfl), equal_float, Json.sameNumber_iff]
    rfl

/-- The meaning of an expression in module `m` that a schema must have. -/
structure Means (env : Environment) (hops : Nat) (m : ModulePath) (e : TypeExpr) (s : Schema) :
    Prop where
  proper : s.Proper
  accepts : ∀ v, s.Accepts v ↔ Inhabits env hops m e v

theorem means_primitive (m : ModulePath) (p : Primitive) :
    Means env hops m (.primitive p) (.ofPrimitive p) := by
  cases p with
  | bool =>
    refine ⟨.boolean, fun v => Schema.accepts_boolean.trans ⟨?_, ?_⟩⟩
    · rintro ⟨b, rfl⟩; exact .bool m b
    · rintro ⟨⟩; exact ⟨_, rfl⟩
  | int =>
    refine ⟨.integer, fun v => Schema.accepts_integer.trans ⟨.int, ?_⟩⟩
    rintro ⟨⟩; assumption
  | float =>
    refine ⟨.number, fun v => Schema.accepts_number.trans ⟨?_, ?_⟩⟩
    · rintro (⟨i, rfl⟩ | ⟨x, rfl⟩)
      · exact .wholeFloat m i
      · exact .float m x
    · intro h
      cases h with
      | wholeFloat _ i => exact .inl ⟨i, rfl⟩
      | float _ x => exact .inr ⟨x, rfl⟩
  | str =>
    refine ⟨.string, fun v => Schema.accepts_string.trans ⟨?_, ?_⟩⟩
    · rintro ⟨s, rfl⟩; exact .str m s
    · rintro ⟨⟩; exact ⟨_, rfl⟩

theorem means_none (m : ModulePath) : Means env hops m .none .null := by
  refine ⟨.null, fun v => Schema.accepts_null.trans ⟨?_, ?_⟩⟩
  · rintro rfl; exact .none m
  · rintro ⟨⟩; rfl

theorem proper_any : Schema.any.Proper := by
  refine .anyOf fun s hs => ?_
  simp only [List.mem_cons, List.not_mem_nil, or_false] at hs
  rcases hs with rfl | rfl | rfl | rfl | rfl | rfl | rfl
  · exact .mapping fun s hs => by cases hs
  · exact .anyArray
  · exact .null
  · exact .string
  · exact .boolean
  · exact .integer
  · exact .number

theorem means_list {m : ModulePath} {item : TypeExpr} {s : Schema}
    (h : Means env hops m item s) : Means env hops m (.list item) (.array s) := by
  refine ⟨.array h.proper, fun v => Schema.accepts_array.trans ⟨?_, ?_⟩⟩
  · rintro ⟨vs, rfl, hvs⟩
    exact .list fun w hw => (h.accepts w).mp (hvs w hw)
  · intro hv
    cases hv with
    | list hvs => exact ⟨_, rfl, fun w hw => (h.accepts w).mpr (hvs w hw)⟩

theorem means_dict {m : ModulePath} {value : TypeExpr} {s : Schema} (key : TypeExpr)
    (h : Means env hops m value s) : Means env hops m (.dict key value) (.map s) := by
  refine ⟨.mapping ?_, fun v => Schema.accepts_mapping.trans ⟨?_, ?_⟩⟩
  · rintro t ⟨⟩
    exact h.proper
  · rintro ⟨ms, rfl, hms⟩
    exact .dict fun p hp => (h.accepts p.2).mp (hms p hp)
  · intro hv
    cases hv with
    | dict hms => exact ⟨_, rfl, fun p hp => (h.accepts p.2).mpr (hms p hp)⟩

theorem means_optional {m : ModulePath} {inner : TypeExpr} {s : Schema}
    (h : Means env hops m inner s) :
    Means env hops m (.optional inner) (.unite [s, .null]) := by
  have hproper : ∀ t ∈ [s, .null], t.Proper := by
    intro t ht
    simp only [List.mem_cons, List.not_mem_nil, or_false] at ht
    rcases ht with rfl | rfl
    · exact h.proper
    · exact .null
  refine ⟨Schema.proper_unite hproper, fun v => (Schema.accepts_unite hproper).trans ⟨?_, ?_⟩⟩
  · rintro ⟨t, ht, hv⟩
    simp only [List.mem_cons, List.not_mem_nil, or_false] at ht
    rcases ht with rfl | rfl
    · exact .present ((h.accepts v).mp hv)
    · exact Schema.accepts_null.mp hv ▸ .absent m inner
  · intro hv
    cases hv with
    | absent => exact ⟨.null, by simp, Schema.accepts_null.mpr rfl⟩
    | present hv => exact ⟨s, by simp, (h.accepts v).mpr hv⟩

theorem means_union {m : ModulePath} {es : List TypeExpr} {ss : List Schema}
    (hlen : es.length = ss.length) (h : ∀ p ∈ es.zip ss, Means env hops m p.1 p.2) :
    Means env hops m (.union es) (.unite ss) := by
  have hproper : ∀ s ∈ ss, s.Proper := by
    intro s hs
    obtain ⟨e, he⟩ := exists_mem_zip_right hlen hs
    exact (h _ he).proper
  refine ⟨Schema.proper_unite hproper, fun v => (Schema.accepts_unite hproper).trans ⟨?_, ?_⟩⟩
  · rintro ⟨s, hs, hv⟩
    obtain ⟨e, he⟩ := exists_mem_zip_right hlen hs
    exact .union (List.of_mem_zip he).1 (((h _ he).accepts v).mp hv)
  · intro hv
    cases hv with
    | union he hv =>
      obtain ⟨s, hs⟩ := exists_mem_zip hlen he
      exact ⟨s, (List.of_mem_zip hs).2, ((h _ hs).accepts v).mpr hv⟩

theorem means_literal {values : List Literal} (m : ModulePath)
    (h : FiniteLiterals (values.map .value)) :
    Means env hops m (.literal (values.map .value)) (.enum values) := by
  have hl (l : Literal) (hl : l ∈ values) (v : Json) : l.toJson.equal v = true ↔ l.Denotes v := by
    apply Literal.equal_toJson_iff
    rintro x rfl
    exact h x (List.mem_map_of_mem hl)
  refine ⟨.enum values, fun v => Schema.accepts_enum.trans ⟨?_, ?_⟩⟩
  · rintro ⟨l, hmem, hv⟩
    exact .literal (List.mem_map_of_mem hmem) ((hl l hmem v).mp hv)
  · intro hv
    cases hv with
    | literal hmem hv =>
      obtain ⟨l, hmem, heq⟩ := List.mem_map.mp hmem
      cases heq
      exact ⟨_, hmem, (hl _ hmem v).mpr hv⟩

theorem means_alias {m : ModulePath} {name : String} {key : TypeKey} {body : TypeExpr} {s : Schema}
    (hl : env.lookup hops ⟨m, name⟩ = .found key (.alias body))
    (h : Means env hops key.module body s) : Means env hops m (.reference name) s := by
  refine ⟨h.proper, fun v => (h.accepts v).trans ⟨.ofAlias hl, ?_⟩⟩
  intro hv
  cases hv with
  | ofAlias hl' hv => cases hl.symm.trans hl'; exact hv
  | ofRecord hl' => cases hl.symm.trans hl'

theorem means_record {m : ModulePath} {name : String} {key : TypeKey} {r : RecordType}
    {ss : List Schema} (hl : env.lookup hops ⟨m, name⟩ = .found key (.record r))
    (hn : r.fields.keys.Nodup) (hlen : r.fields.length = ss.length)
    (h : ∀ q ∈ r.fields.zip ss, Means env hops key.module q.1.2 q.2) :
    Means env hops m (.reference name)
      (.record (r.fields.keys.zip ss) (if r.total then r.fields.keys else [])) := by
  constructor
  · have hnodup := nodup_properties hlen hn
    refine .object hnodup (fun p hp => ?_) fun s hs => by cases hs
    obtain ⟨e, he⟩ := (find?_properties hlen hn).mp (Table.find?_of_mem hnodup hp)
    exact (h _ he).proper
  · intro v
    rw [Schema.record, Schema.accepts_object, keys_properties hlen]
    constructor
    · rintro ⟨ms, rfl, hvalues, hrequired, hclosed⟩
      refine .ofRecord hl (fun p hp => ?_) ?_ fun htotal => ?_
      · exact Decidable.byContradiction (hclosed p hp)
      · rintro ⟨k, e⟩ hfield p hp rfl
        obtain ⟨s, hs⟩ := exists_mem_zip hlen hfield
        exact ((h _ hs).accepts p.2).mp (hvalues p hp s ((find?_properties hlen hn).mpr ⟨e, hs⟩))
      · rwa [if_pos htotal] at hrequired
    · intro hv
      cases hv with
      | ofAlias hl' => cases hl.symm.trans hl'
      | @ofRecord _ _ _ _ ms hl' hclosed hvalues htotal =>
        cases hl.symm.trans hl'
        refine ⟨ms, rfl, fun p hp s hs => ?_, fun k hk => ?_, fun p hp hnot => hnot (hclosed p hp)⟩
        · obtain ⟨e, he⟩ := (find?_properties hlen hn).mp hs
          exact ((h _ he).accepts p.2).mpr (hvalues (p.1, e) (List.of_mem_zip he).1 p hp rfl)
        · split at hk
          · rename_i ht
            exact htotal ht k hk
          · exact absurd hk List.not_mem_nil

/-- Whatever resolves means what its schema accepts. -/
theorem Resolves.means {m : ModulePath} {e : TypeExpr} {s : Schema} (h : Resolves env hops m e s)
    (henv : env.Meaningful) (he : FiniteLiterals e.literalMembers) : Means env hops m e s := by
  induction h with
  | primitive m p => exact means_primitive m p
  | none m => exact means_none m
  | any m => exact ⟨proper_any, fun v => ⟨fun _ => .any m v, fun _ => Schema.accepts_any v⟩⟩
  | list _ ih => exact means_list (ih he)
  | dict _ _ _ ih => exact means_dict _ (ih (he.mono (List.subset_append_right _ _)))
  | optional _ ih => exact means_optional (ih he)
  | union hlen _ ih =>
    refine means_union hlen fun p hp => ih p hp (he.mono fun l hl => ?_)
    exact TypeExpr.mem_literalMembersAll.mpr ⟨p.1, (List.of_mem_zip hp).1, hl⟩
  | literal m values => exact means_literal m he
  | ofAlias hl _ ih => exact means_alias hl (ih (henv.finite _ _ (Environment.lookup_found hl)))
  | @ofRecord m name key r ss hl hlen _ ih =>
    have hd := Environment.lookup_found hl
    rw [List.length_map] at hlen
    refine means_record hl (henv.tabular _ _ hd) hlen fun q hq => ?_
    have hp : (q.1.2, q.2) ∈ (r.fields.map Prod.snd).zip ss := by
      rw [List.zip_map_left]
      exact List.mem_map_of_mem (f := Prod.map Prod.snd id) hq
    refine ih (q.1.2, q.2) hp ((henv.finite _ _ hd).mono fun l hl' => ?_)
    exact TypeExpr.mem_literalMembersAll.mpr ⟨q.1.2, (List.of_mem_zip hp).1, hl'⟩

/-- Resolution preserves meaning: the document of the schema admits a value if and only if it is one
of the values of the type expression. -/
theorem document_admits_iff_inhabits (env : Environment) (hops : Nat) (m : ModulePath)
    (e : TypeExpr) (henv : env.Meaningful) (he : FiniteLiterals e.literalMembers) (s : Schema)
    (hs : ((env.resolve hops m e).run .fresh).1 = .ok s) (v : Json) :
    s.document.admits v = true ↔ Inhabits env hops m e v := by
  have hdirect : Direct.resolve env hops m e = .ok s :=
    (resolve_agrees m e .fresh (Resolver.fresh_valid env hops)).1.symm.trans hs
  have hresolves : Resolves env hops m e s :=
    (Direct.expand_eq_ok_iff fun name _ _ => Direct.reference_eq_ok_iff (reaches_nil m name)).mp
      hdirect
  exact s.admits_document.trans ((hresolves.means henv he).accepts v)

/-- Two definitions that another module imports: a shape is a point or the number one half. -/
def Environment.shapes : Environment where
  catalog := [
    (⟨⟨"types"⟩, "Point"⟩,
      .record ⟨true, [("x", .primitive .int), ("y", .optional (.primitive .float))]⟩),
    (⟨⟨"types"⟩, "Shape"⟩,
      .alias (.union [.reference "Point", .literal [.value (.float ⟨0x3FE0000000000000⟩)]]))]
  scopes := [(⟨"app"⟩, ⟨[⟨"types"⟩], [("S", ⟨⟨"types"⟩, "Shape"⟩)], []⟩)]

def Schema.optionalShape : Schema :=
  .anyOf [.record [("x", .integer), ("y", .anyOf [.number, .null])] ["x", "y"],
    .enum [.float ⟨0x3FE0000000000000⟩], .null]

theorem Environment.shapes_meaningful : shapes.Meaningful := by
  refine ⟨fun key d h => ?_, fun key d h x hx => ?_⟩
  all_goals
    have hmem := Table.mem_of_find? h
    simp only [shapes, List.mem_cons, Prod.mk.injEq, List.not_mem_nil, or_false] at hmem
    rcases hmem with ⟨_, rfl⟩ | ⟨_, rfl⟩
  · exact (by decide : ["x", "y"].Nodup)
  · trivial
  · simp [Definition.literalMembers, TypeExpr.literalMembersAll, TypeExpr.literalMembers] at hx
  · have hx : x = ⟨0x3FE0000000000000⟩ := by
      simpa [Definition.literalMembers, TypeExpr.literalMembersAll, TypeExpr.literalMembers]
        using hx
    subst hx
    decide

theorem shapes_admits_iff_inhabits :
    ((Environment.shapes.resolve 1 ⟨"app"⟩ (.list (.optional (.reference "S")))).run .fresh).1 =
        .ok (.array .optionalShape) ∧
      Inhabits .shapes 1 ⟨"app"⟩ (.list (.optional (.reference "S")))
        (.arr [.obj [("y", .null), ("x", .int 3)], .float ⟨0x3FE0000000000000⟩, .null]) ∧
      ¬ Inhabits .shapes 1 ⟨"app"⟩ (.list (.optional (.reference "S")))
        (.arr [.obj [("x", .int 3)]]) := by
  have hs : ((Environment.shapes.resolve 1 ⟨"app"⟩ (.list (.optional (.reference "S")))).run
      .fresh).1 = .ok (.array .optionalShape) := rfl
  have hadmits := document_admits_iff_inhabits .shapes 1 ⟨"app"⟩
    (.list (.optional (.reference "S"))) Environment.shapes_meaningful
    (fun x hx => absurd hx List.not_mem_nil) (.array .optionalShape) hs
  refine ⟨hs, (hadmits _).mp (by decide +kernel), ?_⟩
  rw [← hadmits]
  decide +kernel

end CallSchema
