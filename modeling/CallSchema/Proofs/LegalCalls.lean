import CallSchema.Proofs.Inhabitation
import CallSchema.Proofs.Signatures
import CallSchema.SyntaxTree.Build

/-! # Legal calls

The objects that can be given to a function as its arguments, and the values it can return, said in
terms of its definition. The schemas of the function admit exactly these.
-/

namespace CallSchema

/-- The arguments that a call gives by their names. -/
def Arguments.declared (a : Arguments) : List Argument :=
  a.positional ++ a.keywordOnly

theorem Arguments.mem_all {a : Arguments} {p : Argument}
    (h : p ∈ a.declared ∨ p ∈ a.keywords.toList) : p ∈ a.all := by
  simp only [declared, all, List.mem_append] at h ⊢
  tauto

section

variable (env : Environment) (hops : Nat) (n : Names) (m : ModulePath)

/-- The values of an annotation, which are those of the type expression it stands for. -/
def Annotates (hint : Option Expression) (v : Json) : Prop :=
  ∃ e t, hint = some e ∧ n.lower e = .ok t ∧ Inhabits env hops m t v

/-- Whether the members of an object are what a function takes. -/
@[mk_iff]
structure LegalCall (f : FunctionDef) (members : List (String × Json)) : Prop where
  complete : ∀ a ∈ f.args.declared, a.hasDefault = false → a.name ∈ members.map Prod.fst
  typed : ∀ a ∈ f.args.declared, ∀ p ∈ members, p.1 = a.name → Annotates env hops n m a.hint p.2
  further : ∀ p ∈ members, p.1 ∉ f.args.declared.map Argument.name →
    ∃ k, f.args.keywords = some k ∧ Annotates env hops n m k.hint p.2

/-- Whether a function can return a value. -/
def LegalResult (f : FunctionDef) (v : Json) : Prop :=
  match f.returns with
  | some e => Annotates env hops n m (some e) v
  | none => v = .null

/-- Whether the members of an object fit declared and further parameters. -/
@[mk_iff]
structure Fits (declared further : List Parameter) (members : List (String × Json)) : Prop where
  complete : ∀ p ∈ declared, p.isRequired = true → p.name ∈ members.map Prod.fst
  typed : ∀ p ∈ declared, ∀ q ∈ members, q.1 = p.name → Inhabits env hops m p.type q.2
  further : ∀ q ∈ members, q.1 ∉ declared.map Parameter.name →
    ∃ k ∈ further, Inhabits env hops m k.type q.2

end

variable {env : Environment} {hops : Nat} {n : Names} {m : ModulePath}

section

variable {e : Expression} {t : TypeExpr} {x : Binary64}

theorem eq_constant_of_ofExpression (h : LiteralMember.ofExpression e = .value (.float x)) :
    e = .constant (.float x) := by
  unfold LiteralMember.ofExpression at h
  split at h <;> cases h
  rfl

theorem TypeExpr.literalMembers_of_isAtom (h : t.isAtom = true) : t.literalMembers = [] := by
  cases t <;> first | rfl | cases h

/-- A double in a literal type is written in the annotation. -/
theorem Names.Lowers.float_mem (h : n.Lowers e t) (hx : .value (.float x) ∈ t.literalMembers) :
    .float x ∈ e.constants := by
  -- What an argument holds is held by the brackets it stands between.
  have hslice {base slice arg : Expression} (harg : arg ∈ slice.arguments)
      (hc : .float x ∈ arg.constants) : .float x ∈ (Expression.subscript base slice).constants :=
    List.mem_append_right _ (Expression.constants_arguments harg hc)
  induction h with
  | atom _ hatom =>
    rw [TypeExpr.literalMembers_of_isAtom hatom] at hx
    cases hx
  | list _ hargs _ ih | optional _ hargs _ ih => exact hslice (by simp [hargs]) (ih hx)
  | dict _ hargs _ _ ihk ihv =>
    rcases List.mem_append.mp hx with hx | hx
    · exact hslice (by simp [hargs]) (ihk hx)
    · exact hslice (by simp [hargs]) (ihv hx)
  | union _ _ hlen _ ih =>
    obtain ⟨t, ht, hx⟩ := TypeExpr.mem_literalMembersAll.mp hx
    obtain ⟨arg, hp⟩ := exists_mem_zip_right hlen ht
    exact hslice (List.of_mem_zip hp).1 (ih _ hp hx)
  | literal _ _ =>
    obtain ⟨arg, harg, hx⟩ := List.mem_map.mp hx
    refine hslice harg ?_
    rw [eq_constant_of_ofExpression hx]
    exact List.mem_singleton.mpr rfl

end

/-- Whether every double in the annotations of a function is finite. -/
def FunctionDef.Finite (f : FunctionDef) : Prop :=
  ∀ e ∈ f.annotations, ∀ x, .float x ∈ e.constants → x.isFinite = true

theorem FunctionDef.Finite.literals {f : FunctionDef} (hf : f.Finite) {e : Expression}
    (he : e ∈ f.annotations) {t : TypeExpr} (h : n.lower e = .ok t) :
    FiniteLiterals t.literalMembers :=
  fun x hx => hf e he x ((Names.lowers_of_lower h).float_mem hx)

theorem FunctionDef.Finite.parameter {f : FunctionDef} (hf : f.Finite) {a : Argument}
    (ha : a ∈ f.args.all) {kind : ParameterKind} {p : Parameter}
    (h : Extraction.Declares n kind a p) : FiniteLiterals p.type.literalMembers := by
  obtain ⟨e, he, hlower⟩ := h.typed
  exact hf.literals (List.mem_append_left _ (List.mem_filterMap.mpr ⟨a, ha, he⟩)) hlower

theorem FunctionDef.Finite.returnType {f : FunctionDef} (hf : f.Finite) {t : TypeExpr}
    (h : Extraction.returnType n f.returns = .ok t) : FiniteLiterals t.literalMembers := by
  rcases Extraction.returnType_eq_ok h with ⟨e, he, hlower⟩ | ⟨-, rfl⟩
  · exact hf.literals (List.mem_append_right _ (Option.mem_toList.mpr he)) hlower
  · exact fun x hx => absurd hx List.not_mem_nil

/-! ## The schema of arguments -/

theorem InputSchema.add_further (i : InputSchema) {p : Parameter} (h : p.kind = .varKeyword)
    (s : Schema) : i.add p s = { i with rest := .each s } := by
  unfold add
  rw [h]

theorem InputSchema.add_declared (i : InputSchema) {p : Parameter} (h : p.kind ≠ .varKeyword)
    (s : Schema) :
    i.add p s =
      { i with
        properties := i.properties.enter p.name s
        required := if p.isRequired then i.required ++ [p.name] else i.required } := by
  unfold add
  split
  · contradiction
  · rfl

section

variable {i out : InputSchema} {declared further : List Parameter}

theorem compileParameters_append (env : Environment) (hops : Nat) (m : ModulePath)
    (i : InputSchema) (ps qs : List Parameter) :
    Direct.compileParameters env hops m i (ps ++ qs) =
      Direct.compileParameters env hops m i ps >>= fun j =>
        Direct.compileParameters env hops m j qs := by
  induction ps generalizing i with
  | nil => rfl
  | cons p ps ih =>
    rw [List.cons_append, Direct.compileParameters, Direct.compileParameters, bind_assoc]
    simp only [ih]

/-- Declared parameters become properties, each under its own name. -/
theorem compileParameters_declared (hkind : ∀ p ∈ declared, p.kind ≠ .varKeyword)
    (hn : (i.properties.keys ++ declared.map Parameter.name).Nodup)
    (h : Direct.compileParameters env hops m i declared = .ok out) :
    ∃ ss, List.Forall₂ (fun p s => Resolves env hops m p.type s) declared ss ∧
      out = ⟨i.properties ++ (declared.map Parameter.name).zip ss,
        i.required ++ (declared.filter Parameter.isRequired).map Parameter.name, i.rest⟩ := by
  induction declared generalizing i with
  | nil =>
    cases h
    exact ⟨[], .nil, by simp⟩
  | cons p ps ih =>
    obtain ⟨hp, hps⟩ := List.forall_mem_cons.mp hkind
    obtain ⟨s, hs, hrest⟩ := bind_eq_ok.mp h
    have hfresh : p.name ∉ i.properties.keys := fun hmem =>
      List.disjoint_of_nodup_append hn hmem (by simp)
    rw [i.add_declared hp, Table.enter_of_not_mem hfresh] at hrest
    obtain ⟨ss, hss, rfl⟩ := ih hps (by simpa [Table.keys] using hn) hrest
    refine ⟨s :: ss, .cons (Direct.resolve_eq_ok_iff.mp hs) hss, ?_⟩
    cases hrequired : p.isRequired <;> simp [hrequired]

/-- The values of further members are those of the one parameter that takes them, if any. -/
theorem compileParameters_further (hkind : ∀ p ∈ further, p.kind = .varKeyword)
    (hone : further.length ≤ 1) (henv : env.Meaningful)
    (hfinite : ∀ p ∈ further, FiniteLiterals p.type.literalMembers)
    (h : Direct.compileParameters env hops m i further = .ok out) (hi : i.rest = .nothing) :
    out.properties = i.properties ∧ out.required = i.required ∧
      ∀ v, out.rest.Accepts v ↔ ∃ k ∈ further, Inhabits env hops m k.type v := by
  match further, hone with
  | [], _ =>
    cases h
    exact ⟨rfl, rfl, fun v => by simp [hi, Additional.Accepts]⟩
  | [k], _ =>
    obtain ⟨s, hs, h⟩ := bind_eq_ok.mp h
    cases h
    have hmeans := (Direct.resolve_eq_ok_iff.mp hs).means henv (hfinite k (by simp))
    rw [i.add_further (hkind k (by simp))]
    exact ⟨rfl, rfl, fun v => (hmeans.accepts v).trans (by simp)⟩

/-- The schema of arguments accepts the objects that fit the parameters. -/
theorem accepts_toSchema_iff_fits (hdeclared : ∀ p ∈ declared, p.kind ≠ .varKeyword)
    (hn : (declared.map Parameter.name).Nodup) (hfurther : ∀ p ∈ further, p.kind = .varKeyword)
    (hone : further.length ≤ 1) (henv : env.Meaningful)
    (hfinite : ∀ p ∈ declared ++ further, FiniteLiterals p.type.literalMembers)
    (h : Direct.compileParameters env hops m .empty (declared ++ further) = .ok out) (v : Json) :
    out.toSchema.Accepts v ↔ ∃ ms, v = .obj ms ∧ Fits env hops m declared further ms := by
  obtain ⟨hfinite, hfinite'⟩ := List.forall_mem_append.mp hfinite
  rw [compileParameters_append] at h
  obtain ⟨j, hj, hout⟩ := bind_eq_ok.mp h
  obtain ⟨ss, hss, rfl⟩ := compileParameters_declared (i := .empty) hdeclared hn hj
  obtain ⟨hproperties, hrequired, hrest⟩ :=
    compileParameters_further hfurther hone henv hfinite' hout rfl
  have hmeans {p : Parameter} {s : Schema} (hp : (p, s) ∈ declared.zip ss) :
      Means env hops m p.type s :=
    (List.forall₂_zip hss hp).means henv (hfinite p (List.of_mem_zip hp).1)
  have hfind {k : String} {s : Schema} :
      Table.find? ((declared.map Parameter.name).zip ss) k = some s ↔
        ∃ p, (p, s) ∈ declared.zip ss ∧ p.name = k := find?_zip_map hss.length_eq hn
  have hkeys : ((declared.map Parameter.name).zip ss).map Prod.fst =
      declared.map Parameter.name := List.map_fst_zip (by simp [hss.length_eq])
  rw [InputSchema.toSchema, hproperties, hrequired, Schema.accepts_object]
  simp only [InputSchema.empty, List.nil_append, hkeys, hrest]
  refine exists_congr fun ms => and_congr_right fun _ => ⟨?_, ?_⟩
  · rintro ⟨hvalues, hcomplete, hothers⟩
    refine ⟨fun p hp hreq => ?_, fun p hp q hq hname => ?_, hothers⟩
    · exact hcomplete p.name (List.mem_map_of_mem (List.mem_filter.mpr ⟨hp, hreq⟩))
    · obtain ⟨s, hs⟩ := exists_mem_zip hss.length_eq hp
      exact ((hmeans hs).accepts q.2).mp (hvalues q hq s (hfind.mpr ⟨p, hs, hname.symm⟩))
  · intro hfits
    refine ⟨fun q hq s hs => ?_, fun k hk => ?_, hfits.further⟩
    · obtain ⟨p, hp, hname⟩ := hfind.mp hs
      exact ((hmeans hp).accepts q.2).mpr (hfits.typed p (List.of_mem_zip hp).1 q hq hname.symm)
    · obtain ⟨p, hp, rfl⟩ := List.mem_map.mp hk
      exact hfits.complete p (List.mem_filter.mp hp).1 (List.mem_filter.mp hp).2

end

/-! ## From parameters to arguments -/

namespace Extraction

variable {f : FunctionDef} {v : Json}

theorem annotates_iff {hint : Option Expression} {e : Expression} {t : TypeExpr}
    (he : hint = some e) (h : n.lower e = .ok t) :
    Annotates env hops n m hint v ↔ Inhabits env hops m t v := by
  subst he
  constructor
  · rintro ⟨e', t', ⟨⟩, h', hv⟩
    cases h.symm.trans h'
    exact hv
  · exact fun hv => ⟨e, t, rfl, h, hv⟩

theorem Declares.annotates_iff {kind : ParameterKind} {a : Argument} {p : Parameter}
    (h : Declares n kind a p) :
    Annotates env hops n m a.hint v ↔ Inhabits env hops m p.type v := by
  obtain ⟨e, he, hlower⟩ := h.typed
  exact Extraction.annotates_iff he hlower

theorem Declares.isRequired_eq {kind : ParameterKind} {a : Argument} {p : Parameter}
    (h : Declares n kind a p) (hkind : kind ≠ .varKeyword) : p.isRequired = !a.hasDefault := by
  simp [Parameter.isRequired, h.hasDefault_eq, h.kind_eq, hkind]

theorem names_eq {as : List Argument} {ps : List Parameter}
    (h : List.Forall₂ (fun a p => ∃ kind, kind ≠ .varKeyword ∧ Declares n kind a p) as ps) :
    ps.map Parameter.name = as.map Argument.name := by
  induction h with
  | nil => rfl
  | cons hp _ ih =>
    obtain ⟨kind, -, hp⟩ := hp
    rw [List.map_cons, List.map_cons, hp.name_eq, ih]

theorem legalCall_iff_fits {declared further : List Parameter}
    (hdeclared : List.Forall₂ (fun a p => ∃ kind, kind ≠ .varKeyword ∧ Declares n kind a p)
      f.args.declared declared)
    (hfurther : List.Forall₂ (Declares n .varKeyword) f.args.keywords.toList further)
    (ms : List (String × Json)) :
    LegalCall env hops n m f ms ↔ Fits env hops m declared further ms := by
  rw [legalCall_iff, fits_iff]
  refine and_congr ?_ (and_congr ?_ ?_)
  · refine forall_mem_iff hdeclared ?_
    rintro a p ⟨kind, hkind, hp⟩
    simp [hp.isRequired_eq hkind, hp.name_eq]
  · refine forall_mem_iff hdeclared ?_
    rintro a p ⟨kind, hkind, hp⟩
    simp only [hp.annotates_iff, hp.name_eq]
  · refine forall₂_congr fun q _ => imp_congr ?_ ?_
    · rw [names_eq hdeclared]
    · rw [← exists_mem_iff hfurther fun a p hp => hp.annotates_iff]
      simp

theorem legalResult_iff {t : TypeExpr} (h : returnType n f.returns = .ok t) :
    LegalResult env hops n m f v ↔ Inhabits env hops m t v := by
  unfold LegalResult
  rcases returnType_eq_ok h with ⟨e, he, hlower⟩ | ⟨hnone, rfl⟩
  · rw [he]
    exact annotates_iff rfl hlower
  · rw [hnone, ← (means_none m).accepts v, Schema.accepts_null]

end Extraction

/-- The schemas of a signature describe the calls of the function it was read from. -/
theorem compileFunction_legal (henv : env.Meaningful) {f : FunctionDef} (hfinite : f.Finite)
    (hn : (f.args.declared.map Argument.name).Nodup) {s : Signature}
    (hs : Extraction.signature n m f = .ok s) {schema : FunctionSchema}
    (h : Direct.compileFunction env hops s = .ok schema) (v : Json) :
    (schema.input.Accepts v ↔ ∃ ms, v = .obj ms ∧ LegalCall env hops n m f ms) ∧
      (schema.output.Accepts v ↔ LegalResult env hops n m f v) := by
  obtain ⟨rfl, hreturns, positional, keywordOnly, keywords, hparameters, hp, hko, hk⟩ :=
    Extraction.signature_eq_ok hs
  obtain ⟨input, hinput, h⟩ := bind_eq_ok.mp h
  obtain ⟨output, houtput, h⟩ := bind_eq_ok.mp h
  cases h
  constructor
  · -- Each declared parameter stands for a declared argument, whichever kind it has.
    have hdeclared : List.Forall₂
        (fun a p => ∃ kind, kind ≠ .varKeyword ∧ Extraction.Declares n kind a p)
        f.args.declared (positional ++ keywordOnly) :=
      List.rel_append (hp.imp fun a p h => ⟨_, by decide, h⟩)
        (hko.imp fun a p h => ⟨_, by decide, h⟩)
    rw [hparameters] at hinput
    simp only [Extraction.legalCall_iff_fits hdeclared hk]
    refine accepts_toSchema_iff_fits ?_ ?_ ?_ ?_ henv ?_ hinput v
    · intro p hmem
      obtain ⟨a, -, kind, hkind, hdeclares⟩ := exists_of_mem_right hdeclared hmem
      rwa [hdeclares.kind_eq]
    · rwa [Extraction.names_eq hdeclared]
    · intro p hmem
      obtain ⟨a, -, hdeclares⟩ := exists_of_mem_right hk hmem
      exact hdeclares.kind_eq
    · rw [← hk.length_eq]
      exact Option.length_toList_le
    · refine List.forall_mem_append.mpr ⟨fun p hmem => ?_, fun p hmem => ?_⟩
      · obtain ⟨a, ha, kind, -, hdeclares⟩ := exists_of_mem_right hdeclared hmem
        exact hfinite.parameter (Arguments.mem_all (.inl ha)) hdeclares
      · obtain ⟨a, ha, hdeclares⟩ := exists_of_mem_right hk hmem
        exact hfinite.parameter (Arguments.mem_all (.inr ha)) hdeclares
  · rw [Extraction.legalResult_iff hreturns]
    have hresolves := Direct.resolve_eq_ok_iff.mp houtput
    exact (hresolves.means henv (hfinite.returnType hreturns)).accepts v

/-- The schemas of a function describe its calls, whatever the resolver was asked before: the
document for the arguments admits the objects that the function can be called with and nothing else,
and the document for the result the values that it can return. -/
theorem Environment.compileFunction_admits_iff_legal (tree : SyntaxTree)
    (hfloats : ∀ x, .float x ∈ tree.constants → x.isFinite = true) (env : Environment)
    (henv : env.Meaningful) (hops : Nat) (m : ModulePath) (isPackage : Bool) (site : FunctionSite)
    (hsite : site ∈ tree.functions) (s : Signature)
    (hs : (Extraction.extracted m isPackage site).signature = .ok s)
    (hn : (site.definition.args.declared.map Argument.name).Nodup) (r : Resolver)
    (hr : r.Reachable env hops) (schema : FunctionSchema)
    (hschema : ((env.compileFunction hops s).run r).1 = .ok schema) (v : Json) :
    (schema.input.document.admits v = true ↔ ∃ ms, v = .obj ms ∧
        LegalCall env hops (Extraction.after m isPackage site.before).names m site.definition ms) ∧
      (schema.output.document.admits v = true ↔
        LegalResult env hops (Extraction.after m isPackage site.before).names m site.definition
          v) := by
  have hdirect : Direct.compileFunction env hops s = .ok schema :=
    (compileFunction_agrees s r hr.valid).1.symm.trans hschema
  have hfinite : site.definition.Finite := fun e he x hx =>
    hfloats x (SyntaxTree.mem_constants hsite he hx)
  rw [Schema.admits_document, Schema.admits_document]
  exact compileFunction_legal henv hfinite hn hs hdirect v

/-- A function that draws one of the shapes that its module imports. -/
def FunctionDef.draw : FunctionDef where
  name := "draw"
  args :=
    { Arguments.ofPositional
        [.typed "label" (.name "str"),
          .withDefault (.typed "shape" (.subscript (.name "Optional") (.name "S")))] with
      keywordOnly := [.typed "width" (.subscript (.name "Literal")
        (.tuple [.constant (.int 1), .constant (.float ⟨0x3FE0000000000000⟩)]))]
      keywords := some (.typed "style" (.name "str")) }
  returns := none
  line := none
  column := none

def FunctionSite.draw : FunctionSite where
  before := [.importFrom (some "typing") 0 [.plain "Literal", .plain "Optional"]]
  definition := .draw

def SyntaxTree.draw : SyntaxTree :=
  ⟨FunctionSite.draw.before ++ [.functionDef .draw]⟩

theorem SyntaxTree.draw_finite (x : Binary64) (h : .float x ∈ draw.constants) :
    x.isFinite = true := by
  have hconstants : draw.constants = [.int 1, .float ⟨0x3FE0000000000000⟩] := rfl
  obtain rfl : x = ⟨0x3FE0000000000000⟩ := by simpa [hconstants] using h
  decide

/-- A call may leave out the shape and give a style. It must give a label, and its width must be one
of two numbers. -/
theorem draw_admits_iff_legal :
    let names := (Extraction.after ⟨"app"⟩ false FunctionSite.draw.before).names
    LegalCall .shapes 1 names ⟨"app"⟩ .draw
        [("width", .int 1), ("colour", .str "red"), ("label", .str "a")] ∧
      ¬ LegalCall .shapes 1 names ⟨"app"⟩ .draw [("width", .int 1)] ∧
      ¬ LegalCall .shapes 1 names ⟨"app"⟩ .draw [("width", .int 2), ("label", .str "a")] ∧
      LegalResult .shapes 1 names ⟨"app"⟩ .draw .null := by
  have hsite : .draw ∈ SyntaxTree.draw.functions := List.mem_singleton.mpr rfl
  have hlegal := Environment.compileFunction_admits_iff_legal .draw SyntaxTree.draw_finite .shapes
    Environment.shapes_meaningful 1 ⟨"app"⟩ false .draw hsite _ rfl (by decide) .fresh .fresh _ rfl
  have hcall := fun ms => (hlegal (.obj ms)).1
  simp only [Json.obj.injEq, exists_eq_left'] at hcall
  refine ⟨(hcall _).mp ?_, mt (hcall _).mpr ?_, mt (hcall _).mpr ?_, (hlegal _).2.mp ?_⟩
  all_goals decide +kernel

end CallSchema
