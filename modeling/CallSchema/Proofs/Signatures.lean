import CallSchema.Proofs.Annotations

/-! # What a signature declares

A signature has one parameter for each argument of its function, in order, and each has the type
that its annotation stands for.
-/

namespace CallSchema

namespace Extraction

variable {n : Names} {m : ModulePath} {f : FunctionDef} {s : Signature}

/-- How a parameter comes from an argument. -/
structure Declares (n : Names) (kind : ParameterKind) (a : Argument) (p : Parameter) : Prop where
  name_eq : p.name = a.name
  kind_eq : p.kind = kind
  hasDefault_eq : p.hasDefault = (a.hasDefault && decide (kind ≠ .varKeyword))
  typed : ∃ hint, a.hint = some hint ∧ n.lower hint = .ok p.type

theorem parameter_declares {function : String} {kind : ParameterKind} {a : Argument} {p : Parameter}
    (hkind : kind ≠ .varKeyword) (h : parameter n function kind a = .ok p) :
    Declares n kind a p := by
  unfold parameter at h
  split at h
  · cases h
  · rename_i hint hhint
    obtain ⟨type, htype, hp⟩ := bind_eq_ok.mp h
    cases hp
    exact ⟨rfl, rfl, by simp [hkind], hint, hhint, htype⟩

theorem keywordParameter_declares {function : String} {a : Argument} {p : Parameter}
    (h : keywordParameter n function a = .ok p) : Declares n .varKeyword a p := by
  unfold keywordParameter at h
  split at h
  · cases h
  · rename_i hint hhint
    obtain ⟨type, htype, hp⟩ := bind_eq_ok.mp h
    cases hp
    exact ⟨rfl, rfl, by simp, hint, hhint, htype⟩

theorem returnType_eq_ok {returns : Option Expression} {t : TypeExpr}
    (h : returnType n returns = .ok t) :
    (∃ e, returns = some e ∧ n.lower e = .ok t) ∨ (returns = none ∧ t = .none) := by
  cases returns with
  | some e => exact .inl ⟨e, rfl, h⟩
  | none =>
    cases h
    exact .inr ⟨rfl, rfl⟩

/-- A signature is made of its positional, its keyword-only and at most one further parameter. -/
theorem signature_eq_ok (h : signature n m f = .ok s) :
    s.module = m ∧ returnType n f.returns = .ok s.returns ∧
      ∃ positional keywordOnly keywords,
        s.parameters = positional ++ keywordOnly ++ keywords ∧
        List.Forall₂ (Declares n .positional) f.args.positional positional ∧
        List.Forall₂ (Declares n .keywordOnly) f.args.keywordOnly keywordOnly ∧
        List.Forall₂ (Declares n .varKeyword) f.args.keywords.toList keywords := by
  unfold signature at h
  split at h
  · cases h
  · split at h
    · cases h
    · obtain ⟨positional, hpositional, h⟩ := bind_eq_ok.mp h
      obtain ⟨keywordOnly, hkeywordOnly, h⟩ := bind_eq_ok.mp h
      obtain ⟨keywords, hkeywords, h⟩ := bind_eq_ok.mp h
      obtain ⟨returns, hreturns, h⟩ := bind_eq_ok.mp h
      cases h
      refine ⟨rfl, hreturns, positional, keywordOnly, keywords, rfl, ?_, ?_, ?_⟩
      · exact (mapM_eq_ok_iff.mp hpositional).imp fun _ _ => parameter_declares (by decide)
      · exact (mapM_eq_ok_iff.mp hkeywordOnly).imp fun _ _ => parameter_declares (by decide)
      · exact (mapM_eq_ok_iff.mp hkeywords).imp fun _ _ => keywordParameter_declares

/-- Every type in a signature is what some annotation stands for, or that of an absent one. -/
theorem lowered_of_signature (h : signature n m f = .ok s) :
    (∀ p ∈ s.parameters, ∃ e, n.lower e = .ok p.type) ∧
      ((∃ e, n.lower e = .ok s.returns) ∨ s.returns = .none) := by
  obtain ⟨-, hreturns, positional, keywordOnly, keywords, hparameters, hp, hko, hk⟩ :=
    signature_eq_ok h
  have hlowered {kind : ParameterKind} {as : List Argument} {ps : List Parameter}
      (hall : List.Forall₂ (Declares n kind) as ps) {p : Parameter} (hmem : p ∈ ps) :
      ∃ e, n.lower e = .ok p.type := by
    obtain ⟨a, -, hdeclares⟩ := exists_of_mem_right hall hmem
    obtain ⟨hint, -, hlower⟩ := hdeclares.typed
    exact ⟨hint, hlower⟩
  constructor
  · intro p hmem
    rw [hparameters, List.append_assoc, List.mem_append, List.mem_append] at hmem
    rcases hmem with hmem | hmem | hmem
    · exact hlowered hp hmem
    · exact hlowered hko hmem
    · exact hlowered hk hmem
  · rcases returnType_eq_ok hreturns with ⟨e, -, he⟩ | ⟨-, hnone⟩
    · exact .inl ⟨e, he⟩
    · exact .inr hnone

/-- Every union and literal type in a signature has a member. -/
theorem filled_of_signature (h : signature n m f = .ok s) :
    (∀ p ∈ s.parameters, p.type.Filled) ∧ s.returns.Filled := by
  obtain ⟨hparameters, hreturns⟩ := lowered_of_signature h
  constructor
  · intro p hp
    obtain ⟨e, he⟩ := hparameters p hp
    exact (Names.lowers_of_lower he).filled
  · rcases hreturns with ⟨e, he⟩ | hnone
    · exact (Names.lowers_of_lower he).filled
    · rw [hnone]
      exact .atom rfl

end Extraction

end CallSchema
