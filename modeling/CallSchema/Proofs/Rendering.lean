import CallSchema.Proofs.Acceptance
import CallSchema.Proofs.Results

/-! # Documents determine schemas

The document of a schema says everything about it. Keywords that are left out are told from those
that are there by the keywords around them, and the names of properties stand apart from keywords.
Only a double that is not finite has no text of its own.
-/

namespace CallSchema

namespace Schema

mutual

/-- The values in all enumerations of a schema. -/
def literals : Schema → List Literal
  | .enum values => values
  | .array items => literals items
  | .mapping rest => additionalLiterals rest
  | .object properties _ rest => propertyLiterals properties ++ additionalLiterals rest
  | .anyOf variants => literalsAll variants
  | .null | .boolean | .integer | .number | .string | .anyArray => []

def additionalLiterals : Additional Schema → List Literal
  | .anything | .nothing => []
  | .each values => literals values

def propertyLiterals : List (String × Schema) → List Literal
  | [] => []
  | (_, s) :: ps => literals s ++ propertyLiterals ps

def literalsAll : List Schema → List Literal
  | [] => []
  | s :: ss => literals s ++ literalsAll ss

end

theorem propertyLiterals_eq (ps : List (String × Schema)) :
    propertyLiterals ps = ps.flatMap fun p => p.2.literals := by
  induction ps with
  | nil => rfl
  | cons p ps ih => rw [propertyLiterals, ih, List.flatMap_cons]

theorem literalsAll_eq (ss : List Schema) : literalsAll ss = ss.flatMap literals := by
  induction ss with
  | nil => rfl
  | cons s ss ih => rw [literalsAll, ih, List.flatMap_cons]

theorem propertyMembers_eq (ps : List (String × Schema)) :
    propertyMembers ps = ps.map fun p => (p.1, p.2.toJson) := by
  induction ps with
  | nil => rfl
  | cons p ps ih => rw [propertyMembers, ih, List.map_cons, toJson]

theorem toJsonAll_eq (ss : List Schema) : toJsonAll ss = ss.map toJson := by
  induction ss with
  | nil => rfl
  | cons s ss ih => rw [toJsonAll, ih, List.map_cons, toJson]

end Schema

/-- All doubles among some literals are finite. -/
def FiniteDoubles (ls : List Literal) : Prop :=
  ∀ x, .float x ∈ ls → x.isFinite = true

namespace FiniteDoubles

variable {as bs : List Literal}

theorem mono (h : FiniteDoubles bs) (hs : as ⊆ bs) : FiniteDoubles as :=
  fun x hx => h x (hs hx)

theorem left (h : FiniteDoubles (as ++ bs)) : FiniteDoubles as :=
  h.mono (List.subset_append_left as bs)

theorem right (h : FiniteDoubles (as ++ bs)) : FiniteDoubles bs :=
  h.mono (List.subset_append_right as bs)

theorem of_mem (h : FiniteDoubles bs) {l : Literal} (hl : l ∈ bs) : FiniteDoubles [l] :=
  h.mono fun _ hk => List.mem_singleton.mp hk ▸ hl

theorem each {rest : Additional Schema} (h : FiniteDoubles (Schema.additionalLiterals rest))
    {s : Schema} (hs : rest = .each s) : FiniteDoubles s.literals := by
  rw [hs] at h
  exact h

theorem property {ps : List (String × Schema)} (h : FiniteDoubles (Schema.propertyLiterals ps))
    {p : String × Schema} (hp : p ∈ ps) : FiniteDoubles p.2.literals := by
  rw [Schema.propertyLiterals_eq] at h
  exact h.mono fun l hl => List.mem_flatMap.mpr ⟨p, hp, hl⟩

theorem variant {ss : List Schema} (h : FiniteDoubles (Schema.literalsAll ss)) {s : Schema}
    (hs : s ∈ ss) : FiniteDoubles s.literals := by
  rw [Schema.literalsAll_eq] at h
  exact h.mono fun l hl => List.mem_flatMap.mpr ⟨s, hs, hl⟩

end FiniteDoubles

/-- Values of different kinds are never written alike, a whole number and a double included. -/
theorem Literal.eq_of_toJson_eq {a b : Literal} (ha : FiniteDoubles [a]) (hb : FiniteDoubles [b])
    (h : a.toJson = b.toJson) : a = b := by
  have hfloat {x : Binary64} (hx : FiniteDoubles [.float x]) : Json.ofBinary64 x = .float x :=
    if_pos (hx x List.mem_cons_self)
  cases a <;> cases b <;> simp_all [toJson, Int64.toInt_inj]

namespace Schema

variable {a b : Schema}

/-- What is left of an object after its type tells the declared properties from what else there may
be. -/
theorem additionalMembers_ne_properties (rest : Additional Schema) (v : Json)
    (ms : List (String × Json)) : additionalMembers rest ≠ ("properties", v) :: ms := by
  cases rest <;> simp [additionalMembers]

theorem eq_of_additionalMembers_eq {r t : Additional Schema}
    (ih : ∀ s, r = .each s → ∀ u, t = .each u → s.members = u.members → s = u)
    (h : additionalMembers r = additionalMembers t) : r = t := by
  cases r <;> cases t <;> simp_all [additionalMembers]

/-- Schemas with the same keywords are the same. -/
theorem eq_of_members_eq (ha : FiniteDoubles a.literals) (hb : FiniteDoubles b.literals)
    (h : a.members = b.members) : a = b := by
  -- The first keyword, with the type it may name, leaves one constructor for `b`. Only objects with
  -- and without declared properties start alike, and arrays with and without items.
  induction a generalizing b with
  | null =>
    cases b with
    | null => rfl
    | _ => simp [members, typeMember] at h
  | boolean =>
    cases b with
    | boolean => rfl
    | _ => simp [members, typeMember] at h
  | integer =>
    cases b with
    | integer => rfl
    | _ => simp [members, typeMember] at h
  | number =>
    cases b with
    | number => rfl
    | _ => simp [members, typeMember] at h
  | string =>
    cases b with
    | string => rfl
    | _ => simp [members, typeMember] at h
  | anyArray =>
    cases b with
    | anyArray => rfl
    | _ => simp [members, typeMember] at h
  | enum values =>
    cases b with
    | enum others =>
      have hvalues : values.map Literal.toJson = others.map Literal.toJson := by
        simpa [members] using h
      have hsame : values = others := eq_of_map_eq_map
        (fun v hv w hw => Literal.eq_of_toJson_eq (ha.of_mem hv) (hb.of_mem hw)) hvalues
      rw [hsame]
    | _ => simp [members, typeMember] at h
  | array items ih =>
    cases b with
    | array others =>
      have hitems : items.members = others.members := by simpa [members, typeMember] using h
      rw [ih (b := others) ha hb hitems]
    | _ => simp [members, typeMember] at h
  | mapping rest ih =>
    cases b with
    | mapping other =>
      have hrest : additionalMembers rest = additionalMembers other := by simpa [members] using h
      rw [eq_of_additionalMembers_eq (fun s hs u hu => ih s hs (.each ha hs) (.each hb hu)) hrest]
    | object properties required other =>
      have hrest := (List.cons.inj h).2
      exact absurd hrest (additionalMembers_ne_properties rest _ _)
    | _ => simp [members, typeMember] at h
  | object properties required rest ihproperties ihrest =>
    cases b with
    | mapping other =>
      have hrest := (List.cons.inj h).2
      exact absurd hrest.symm (additionalMembers_ne_properties other _ _)
    | object properties' required' other =>
      obtain ⟨hproperties, hrequired, hrest⟩ : properties.map (fun p => (p.1, p.2.toJson)) =
          properties'.map (fun p => (p.1, p.2.toJson)) ∧
          required.map Json.str = required'.map Json.str ∧
          additionalMembers rest = additionalMembers other := by
        simpa [members, propertyMembers_eq, Json.ofStrings] using h
      have hnames : required = required' :=
        List.map_injective_iff.mpr (fun _ _ hs => Json.str.inj hs) hrequired
      have hdeclared : properties = properties' := by
        refine eq_of_map_eq_map (fun p hp q hq hpq => ?_) hproperties
        obtain ⟨hname, hschema⟩ := Prod.mk.inj hpq
        exact Prod.ext hname
          (ihproperties p hp (ha.left.property hp) (hb.left.property hq) (Json.obj.inj hschema))
      have hothers : rest = other := eq_of_additionalMembers_eq
        (fun s hs u hu => ihrest s hs (ha.right.each hs) (hb.right.each hu)) hrest
      rw [hdeclared, hnames, hothers]
    | _ => simp [members, typeMember] at h
  | anyOf variants ih =>
    cases b with
    | anyOf others =>
      have hvariants : variants.map toJson = others.map toJson := by
        simpa [members, toJsonAll_eq] using h
      rw [eq_of_map_eq_map (fun s hs t ht hst =>
        ih s hs (ha.variant hs) (hb.variant ht) (Json.obj.inj hst)) hvariants]
    | _ => simp [members, typeMember] at h

/-- The language of documents is no keyword of schemas. -/
theorem language_notMem_members (a : Schema) : "$schema" ∉ a.members.map Prod.fst := by
  cases a with
  | mapping rest => cases rest <;> simp [members, additionalMembers, typeMember]
  | object properties required rest =>
    cases rest <;> simp [members, additionalMembers, typeMember]
  | _ => simp [members, typeMember]

/-- Two schemas whose doubles are finite are the same if their documents are. A whole document is
the one of the schema with the language in front. -/
theorem documents_determine (a b : Schema) (ha : ∀ x, .float x ∈ a.literals → x.isFinite = true)
    (hb : ∀ x, .float x ∈ b.literals → x.isFinite = true) :
    (a.toJson = b.toJson → a = b) ∧
      (∃ ms, a.toJson = .obj ms ∧ "$schema" ∉ ms.map Prod.fst ∧
        a.document = .obj (("$schema", .str "http://json-schema.org/draft-07/schema#") :: ms)) ∧
      (a.document = b.document → a = b) := by
  refine ⟨fun h => ?_, ⟨a.members, rfl, language_notMem_members a, rfl⟩, fun h => ?_⟩
  · exact eq_of_members_eq ha hb (Json.obj.inj h)
  · exact eq_of_members_eq ha hb (List.cons.inj (Json.obj.inj h)).2

/-- An object whose properties have the names of keywords. -/
def namedLikeKeywords (five : Literal) : Schema :=
  .object [("type", .enum [five, .null, .bool false]), ("items", .anyArray),
    ("additionalProperties", .mapping .nothing)] ["items", "type"] (.each .any)

theorem documents_determine_keywords :
    (∀ x, .float x ∈ (namedLikeKeywords (.int 5)).literals → x.isFinite = true) ∧
      (∀ x, .float x ∈ (namedLikeKeywords (.float ⟨0x4014000000000000⟩)).literals →
        x.isFinite = true) ∧
      (namedLikeKeywords (.int 5)).toJson ≠
        (namedLikeKeywords (.float ⟨0x4014000000000000⟩)).toJson ∧
      (namedLikeKeywords (.int 5)).document ≠
        (namedLikeKeywords (.float ⟨0x4014000000000000⟩)).document := by
  have hint : (namedLikeKeywords (.int 5)).literals = [.int 5, .null, .bool false] := by decide
  have hfloat : (namedLikeKeywords (.float ⟨0x4014000000000000⟩)).literals =
    [.float ⟨0x4014000000000000⟩, .null, .bool false] := by decide
  have ha : ∀ x, .float x ∈ (namedLikeKeywords (.int 5)).literals → x.isFinite = true := by
    simp [hint]
  have hb : ∀ x, .float x ∈ (namedLikeKeywords (.float ⟨0x4014000000000000⟩)).literals →
      x.isFinite = true := by
    simp only [hfloat, List.mem_cons, Literal.float.injEq, reduceCtorEq, List.not_mem_nil, or_false,
      forall_eq]
    decide +kernel
  have hne : namedLikeKeywords (.int 5) ≠ namedLikeKeywords (.float ⟨0x4014000000000000⟩) := by
    simp [namedLikeKeywords]
  obtain ⟨hvalue, -, hdocument⟩ := documents_determine _ _ ha hb
  exact ⟨ha, hb, mt hvalue hne, mt hdocument hne⟩

end Schema

end CallSchema
