import CallSchema.Proofs.Signatures

/-! # What extraction hands over

Resolution and compilation rely on the form of what was extracted. Whatever the syntax tree, every
union and literal type has a member, faults are of the kinds that annotations and signatures have,
the parameters of a signature are in order, every bound name comes from a module that is imported,
and there is one entry for each function definition.
-/

namespace CallSchema

/-- The function definition that a statement is. -/
def Statement.function? : Statement → Option FunctionDef
  | .functionDef f => some f
  | _ => none

/-- Whether the fault is in the parameter list of a function. -/
def Fault.IsInvalidSignature (fault : Fault) : Prop :=
  ∃ function reason, fault = .invalidSignature function reason

/-- Positional parameters come before keyword-only ones, and at most one parameter takes all further
keyword arguments: the last one, without a default. -/
structure Signature.Ordered (s : Signature) : Prop where
  positional_first : s.parameters.Pairwise fun p q => p.kind = .keywordOnly → q.kind ≠ .positional
  varKeyword_unique : s.parameters.countP (fun p => p.kind = .varKeyword) ≤ 1
  varKeyword_last : ∀ p ∈ s.parameters.dropLast, p.kind ≠ .varKeyword
  varKeyword_noDefault : ∀ p ∈ s.parameters, p.kind = .varKeyword → p.hasDefault = false

/-- Every bound name comes from a module that a relative import leads to. -/
def Scope.Imported (s : Scope) : Prop :=
  ∀ b ∈ s.bindings, b.2.module ∈ s.relative

namespace Scope.Imported

variable {s : Scope}

theorem addRelative (h : s.Imported) (target : ModulePath) : (s.addRelative target).Imported :=
  fun b hb => mem_addNew.mpr (.inl (h b hb))

theorem bind (h : s.Imported) (localName : String) (target : TypeKey) :
    (s.bind localName target).Imported := by
  intro b hb
  apply mem_addNew.mpr
  rcases Table.mem_enter hb with hb | rfl
  · exact .inl (h b hb)
  · exact .inr rfl

end Scope.Imported

namespace Extraction

def Imported (x : Extraction) : Prop :=
  x.out.scope.Imported

namespace Imported

variable {x : Extraction}

theorem importModule (h : x.Imported) (i : ImportedName) : (x.importModule i).Imported := by
  unfold Extraction.importModule
  split <;> exact h

theorem importAbsolute (h : x.Imported) (module : String) (names : List ImportedName) :
    (x.importAbsolute module names).Imported := by
  refine List.foldlRecOn (motive := Imported) _ _ h fun x hx i _ => ?_
  split <;> exact hx

theorem importRelative (h : x.Imported) (target : ModulePath) (names : List ImportedName) :
    (x.importRelative target names).Imported := by
  refine List.foldlRecOn (motive := Imported) _ _ h fun x hx i _ => ?_
  dsimp only [Imported, withScope]
  split
  · exact hx.addRelative target
  · exact hx.bind i.bound ⟨target, i.name⟩

theorem importFrom (h : x.Imported) (module : Option String) (level : Nat)
    (names : List ImportedName) : (x.importFrom module level names).Imported := by
  unfold Extraction.importFrom
  split
  · split
    · split
      · exact h
      · exact h.importAbsolute _ names
    · exact h
  · split
    · exact h.importRelative _ names
    · exact h

/-- No statement binds a name without importing its module. -/
theorem visit (h : x.Imported) (s : Statement) : (x.visit s).Imported := by
  cases s with
  | importModules names =>
    exact List.foldlRecOn (motive := Imported) _ _ h fun _ hx i _ => hx.importModule i
  | importFrom module level names => exact h.importFrom module level.toNat names
  | assign targets value =>
    rw [Extraction.visit]
    rcases x.assign_eq targets value with hs | ⟨name, hs⟩
    · rwa [hs]
    · rw [hs]
      exact h
  | classDef name bases keywords body =>
    rw [Extraction.visit]
    rcases x.classDef_eq name bases keywords body with hs | hs
    · rwa [hs]
    · rw [hs]
      exact h
  | declare target hint value => exact h
  | functionDef f => exact h
  | other => exact h

end Imported

theorem imported_after (module : ModulePath) (isPackage : Bool) (statements : List Statement) :
    (after module isPackage statements).Imported := by
  refine List.foldlRecOn (motive := Imported) _ _ ?_ fun _ hx s _ => hx.visit s
  exact fun b hb => absurd hb List.not_mem_nil

variable {n : Names} {m : ModulePath} {f : FunctionDef} {s : Signature} {fault : Fault}

theorem kind_of_declares {kind : ParameterKind} {as : List Argument} {ps : List Parameter}
    (h : List.Forall₂ (Declares n kind) as ps) {p : Parameter} (hp : p ∈ ps) : p.kind = kind := by
  obtain ⟨a, -, ha⟩ := exists_of_mem_right h hp
  exact ha.kind_eq

theorem ordered_of_signature (h : signature n m f = .ok s) : s.Ordered := by
  obtain ⟨-, -, positional, keywordOnly, keywords, hparameters, hp, hko, hk⟩ := signature_eq_ok h
  have hlength : keywords.length ≤ 1 := by
    rw [← hk.length_eq]
    cases f.args.keywords <;> simp
  have hdeclared : ∀ p ∈ positional ++ keywordOnly, p.kind ≠ .varKeyword := by
    intro p hmem
    rcases List.mem_append.mp hmem with hmem | hmem
    · simp [kind_of_declares hp hmem]
    · simp [kind_of_declares hko hmem]
  have hnone : (positional ++ keywordOnly).countP (fun p => p.kind = .varKeyword) = 0 :=
    List.countP_eq_zero.mpr fun p hmem => by simpa using hdeclared p hmem
  constructor
  · rw [hparameters]
    refine List.pairwise_append.mpr ⟨List.pairwise_append.mpr ⟨?_, ?_, ?_⟩, ?_, ?_⟩
    · exact List.pairwise_of_forall_mem_list fun p hmem q _ => by simp [kind_of_declares hp hmem]
    · exact List.pairwise_of_forall_mem_list fun p _ q hmem => by simp [kind_of_declares hko hmem]
    · exact fun p hmem q _ => by simp [kind_of_declares hp hmem]
    · exact List.pairwise_of_forall_mem_list fun p _ q hmem => by simp [kind_of_declares hk hmem]
    · exact fun p _ q hmem => by simp [kind_of_declares hk hmem]
  · rw [hparameters, List.countP_append, hnone, Nat.zero_add]
    exact Nat.le_trans List.countP_le_length hlength
  · rw [hparameters]
    match keywords, hlength with
    | [], _ =>
      rw [List.append_nil]
      exact fun p hmem => hdeclared p (List.dropLast_subset _ hmem)
    | [_], _ => rwa [List.dropLast_concat]
  · rw [hparameters]
    intro p hmem hkind
    rcases List.mem_append.mp hmem with hmem | hmem
    · exact absurd hkind (hdeclared p hmem)
    · obtain ⟨a, -, ha⟩ := exists_of_mem_right hk hmem
      simpa using ha.hasDefault_eq

/-- An argument is refused if its annotation is missing or stands for no type. -/
theorem typed_eq_error {hint : Option Expression} {missing : Fault} {wrap : TypeExpr → Parameter}
    (hmissing : missing.IsInvalidSignature)
    (h : (match hint with
      | none => .error missing
      | some e => n.lower e >>= fun type => .ok (wrap type)) = Except.error fault) :
    fault.IsUnsupportedType ∨ fault.IsInvalidSignature := by
  cases hint with
  | none =>
    cases h
    exact .inr hmissing
  | some e =>
    rcases bind_eq_error.mp h with h | ⟨type, -, h⟩
    · exact .inl (Names.isUnsupportedType_of_lower h)
    · cases h

theorem returnType_eq_error {returns : Option Expression}
    (h : returnType n returns = .error fault) : fault.IsUnsupportedType := by
  cases returns with
  | none => cases h
  | some e => exact Names.isUnsupportedType_of_lower h

/-- A function has no signature because of its parameter list or of one of its annotations. -/
theorem signature_eq_error (h : signature n m f = .error fault) :
    fault.IsUnsupportedType ∨ fault.IsInvalidSignature := by
  unfold signature at h
  split at h
  · cases h
    exact .inr ⟨_, _, rfl⟩
  · split at h
    · cases h
      exact .inr ⟨_, _, rfl⟩
    · rcases bind_eq_error.mp h with h | ⟨positional, -, h⟩
      · obtain ⟨a, -, ha⟩ := exists_of_mapM_eq_error h
        exact typed_eq_error ⟨_, _, rfl⟩ ha
      rcases bind_eq_error.mp h with h | ⟨keywordOnly, -, h⟩
      · obtain ⟨a, -, ha⟩ := exists_of_mapM_eq_error h
        exact typed_eq_error ⟨_, _, rfl⟩ ha
      rcases bind_eq_error.mp h with h | ⟨keywords, -, h⟩
      · obtain ⟨a, -, ha⟩ := exists_of_mapM_eq_error h
        exact typed_eq_error ⟨_, _, rfl⟩ ha
      rcases bind_eq_error.mp h with h | ⟨returns, -, h⟩
      · exact .inl (returnType_eq_error h)
      · cases h

end Extraction

theorem definitions_functionSites (before rest : List Statement) :
    (functionSites before rest).map FunctionSite.definition =
      rest.filterMap Statement.function? := by
  induction rest generalizing before with
  | nil => rfl
  | cons s rest ih =>
    rw [List.filterMap_cons]
    cases s with
    | functionDef f => simp [functionSites, Statement.function?, ih]
    | _ => exact ih _

/-- Every entry for a function is that of a definition in the syntax tree. -/
theorem SyntaxTree.signature_of_mem {t : SyntaxTree} {module : ModulePath} {isPackage : Bool}
    {f : ExtractedFunction} (h : f ∈ (t.extract module isPackage).functions) :
    ∃ n definition, f.signature = Extraction.signature n module definition := by
  rw [t.extract_functions] at h
  obtain ⟨site, -, rfl⟩ := List.mem_map.mp h
  exact ⟨_, site.definition, rfl⟩

/-- The form of what is extracted from a syntax tree. -/
structure ModuleExtract.WellFormed (x : ModuleExtract) (t : SyntaxTree) : Prop where
  definitions_filled : ∀ entry ∈ x.definitions, entry.2.Filled
  invalid_unsupported : ∀ entry ∈ x.definitions, ∀ fault, entry.2 = .invalid fault →
    fault.IsUnsupportedType
  signatures_filled : ∀ f ∈ x.functions, ∀ s, f.signature = .ok s →
    (∀ p ∈ s.parameters, p.type.Filled) ∧ s.returns.Filled
  signatures_ordered : ∀ f ∈ x.functions, ∀ s, f.signature = .ok s → s.Ordered
  rejected : ∀ f ∈ x.functions, ∀ fault, f.signature = .error fault →
    fault.IsUnsupportedType ∨ fault.IsInvalidSignature
  bindings_imported : x.scope.Imported
  functions_listed : x.functions.map (fun f => (f.name, f.position)) =
    (t.body.filterMap Statement.function?).map fun f => (f.name, f.position)

/-- What is extracted from a module is well formed, whatever its syntax tree. -/
theorem SyntaxTree.extract_wellFormed (t : SyntaxTree) (module : ModulePath) (isPackage : Bool) :
    (t.extract module isPackage).WellFormed t := by
  have hread := Extraction.read_after module isPackage t.body
  constructor
  · intro entry hentry
    obtain ⟨n, hd⟩ := hread entry hentry
    exact hd.filled
  · intro entry hentry fault hinvalid
    obtain ⟨n, hd⟩ := hread entry hentry
    exact (hinvalid ▸ hd).isUnsupportedType
  · intro f hf s hs
    obtain ⟨n, definition, hsignature⟩ := signature_of_mem hf
    exact Extraction.filled_of_signature (hsignature.symm.trans hs)
  · intro f hf s hs
    obtain ⟨n, definition, hsignature⟩ := signature_of_mem hf
    exact Extraction.ordered_of_signature (hsignature.symm.trans hs)
  · intro f hf fault hfault
    obtain ⟨n, definition, hsignature⟩ := signature_of_mem hf
    exact Extraction.signature_eq_error (hsignature.symm.trans hfault)
  · exact Extraction.imported_after module isPackage t.body
  · rw [t.extract_functions, ← definitions_functionSites [], List.map_map, List.map_map]
    rfl

end CallSchema
