import CallSchema.Compilation
import CallSchema.Proofs.Tables

/-! # What a module declares

Imports change the names that are known and nothing else; every other statement adds at most one
definition or one function. So the functions of a module are its function definitions, each read
with the names known before it, and the fields of every record form a table.
-/

namespace CallSchema

/-- A top-level function definition and the statements before it. -/
structure FunctionSite where
  before : List Statement
  definition : FunctionDef

/-- The function definitions among statements that follow others. -/
def functionSites (before : List Statement) : List Statement → List FunctionSite
  | [] => []
  | .functionDef f :: rest => ⟨before, f⟩ :: functionSites (before ++ [.functionDef f]) rest
  | s :: rest => functionSites (before ++ [s]) rest

def SyntaxTree.functions (t : SyntaxTree) : List FunctionSite :=
  functionSites [] t.body

namespace Extraction

/-- What is known after the given statements of a module. -/
def after (module : ModulePath) (isPackage : Bool) (statements : List Statement) : Extraction :=
  statements.foldl visit ⟨module, isPackage, .empty, .empty⟩

theorem after_concat (module : ModulePath) (isPackage : Bool) (statements : List Statement)
    (s : Statement) :
    after module isPackage (statements ++ [s]) = (after module isPackage statements).visit s :=
  List.foldl_append

/-- The functions that a single statement defines. -/
def defined (x : Extraction) : Statement → List ExtractedFunction
  | .functionDef f => [⟨f.name, f.position, signature x.names x.module f⟩]
  | _ => []

/-- The definitions that the statements of a module make, read with the names `n`. -/
inductive ReadAs (n : Names) : Definition → Prop
  | ofAlias (value : Expression) : ReadAs n (toDefinition .alias (n.lower value))
  | ofRecord (keywords : List ClassKeyword) (body : List Statement) :
      ReadAs n (toDefinition .record (record n keywords body))

/-- What imports leave alone: the module, its definitions and its functions. -/
def declared (x : Extraction) :
    ModulePath × Table String Definition × List ExtractedFunction :=
  (x.module, x.out.definitions, x.out.functions)

theorem declared_foldl {α : Type} {f : Extraction → α → Extraction}
    (h : ∀ x a, (f x a).declared = x.declared) (as : List α) (x : Extraction) :
    (as.foldl f x).declared = x.declared := by
  induction as generalizing x with
  | nil => rfl
  | cons a as ih => exact (ih (f x a)).trans (h x a)

theorem declared_importModule (x : Extraction) (i : ImportedName) :
    (x.importModule i).declared = x.declared := by
  unfold importModule
  split <;> rfl

theorem declared_importFrom (x : Extraction) (module : Option String) (level : Nat)
    (names : List ImportedName) : (x.importFrom module level names).declared = x.declared := by
  unfold importFrom
  split
  · split
    · split
      · rfl
      · refine declared_foldl (fun x i => ?_) _ x
        split <;> rfl
    · rfl
  · split
    · refine declared_foldl (fun x i => ?_) _ x
      rfl
    · rfl

theorem assign_eq (x : Extraction) (targets : List Expression) (value : Expression) :
    x.assign targets value = x ∨
      ∃ name, x.assign targets value =
        x.define name (toDefinition .alias (x.names.lower value)) := by
  unfold assign
  split
  · split
    · exact .inr ⟨_, rfl⟩
    · exact .inl rfl
  · exact .inl rfl

theorem classDef_eq (x : Extraction) (name : String) (bases : List Expression)
    (keywords : List ClassKeyword) (body : List Statement) :
    x.classDef name bases keywords body = x ∨
      x.classDef name bases keywords body =
        x.define name (toDefinition .record (record x.names keywords body)) := by
  unfold classDef
  split
  · exact .inr rfl
  · exact .inl rfl

/-- What a statement does to the declarations of a module: nothing, or it adds a definition or a
function. -/
theorem declared_visit (x : Extraction) (s : Statement) :
    (x.visit s).declared = (x.module, x.out.definitions, x.out.functions ++ x.defined s) ∨
      ∃ name d, ReadAs x.names d ∧ x.defined s = [] ∧
        (x.visit s).declared = (x.module, x.out.definitions.enter name d, x.out.functions) := by
  cases s with
  | importModules names =>
    refine .inl ((declared_foldl declared_importModule names x).trans ?_)
    simp [declared, defined]
  | importFrom module level names =>
    refine .inl ((declared_importFrom x module level.toNat names).trans ?_)
    simp [declared, defined]
  | assign targets value =>
    rcases x.assign_eq targets value with h | ⟨name, h⟩
    · exact .inl (by simp [visit, h, declared, defined])
    · exact .inr ⟨name, _, .ofAlias value, rfl, by rw [visit, h]; rfl⟩
  | declare target hint value => exact .inl (by simp [visit, declared, defined])
  | classDef name bases keywords body =>
    rcases x.classDef_eq name bases keywords body with h | h
    · exact .inl (by simp [visit, h, declared, defined])
    · exact .inr ⟨name, _, .ofRecord keywords body, rfl, by rw [visit, h]; rfl⟩
  | functionDef f => exact .inl rfl
  | other => exact .inl (by simp [visit, declared, defined])

theorem module_visit (x : Extraction) (s : Statement) : (x.visit s).module = x.module := by
  rcases x.declared_visit s with h | ⟨name, d, _, _, h⟩
  · exact congrArg Prod.fst h
  · exact congrArg Prod.fst h

/-- A statement adds the functions it defines and leaves those before it. -/
theorem functions_visit (x : Extraction) (s : Statement) :
    (x.visit s).out.functions = x.out.functions ++ x.defined s := by
  rcases x.declared_visit s with h | ⟨name, d, _, hnone, h⟩
  · exact congrArg (·.2.2) h
  · rw [hnone, List.append_nil]
    exact congrArg (·.2.2) h

/-- The extracted form of a function definition, read with the names known before it. -/
def extracted (module : ModulePath) (isPackage : Bool) (site : FunctionSite) : ExtractedFunction :=
  ⟨site.definition.name, site.definition.position,
    signature (after module isPackage site.before).names module site.definition⟩

theorem module_after (module : ModulePath) (isPackage : Bool) (statements : List Statement) :
    (after module isPackage statements).module = module := by
  induction statements using List.reverseRecOn with
  | nil => rfl
  | append_singleton statements s ih =>
    rw [after_concat, module_visit]
    exact ih

theorem functions_after (module : ModulePath) (isPackage : Bool) (before rest : List Statement) :
    (after module isPackage (before ++ rest)).out.functions =
      (after module isPackage before).out.functions ++
        (functionSites before rest).map (extracted module isPackage) := by
  induction rest generalizing before with
  | nil => simp [functionSites]
  | cons s rest ih =>
    have hstep : (after module isPackage (before ++ [s])).out.functions =
        (after module isPackage before).out.functions ++
          (after module isPackage before).defined s := by
      rw [after_concat, functions_visit]
    have hsites : (functionSites before (s :: rest)).map (extracted module isPackage) =
        (after module isPackage before).defined s ++
          (functionSites (before ++ [s]) rest).map (extracted module isPackage) := by
      cases s with
      | functionDef f => simp [functionSites, defined, extracted, module_after]
      | _ => rfl
    rw [hsites, ← List.append_assoc, ← hstep, ← ih (before ++ [s]), List.append_assoc]
    rfl

end Extraction

theorem SyntaxTree.extract_functions (t : SyntaxTree) (module : ModulePath) (isPackage : Bool) :
    (t.extract module isPackage).functions =
      t.functions.map (Extraction.extracted module isPackage) :=
  Extraction.functions_after module isPackage [] t.body

/-- Whether the fields of a record form a table. -/
def Definition.Tabular : Definition → Prop
  | .record r => r.fields.keys.Nodup
  | .alias _ | .invalid _ => True

def Environment.Tabular (env : Environment) : Prop :=
  ∀ key d, env.catalog.find? key = some d → d.Tabular

namespace Extraction

theorem nodup_recordFields {n : Names} {fields result : Table String TypeExpr}
    {body : List Statement} (h : recordFields n fields body = .ok result)
    (hn : fields.keys.Nodup) : result.keys.Nodup := by
  induction fields, body using recordFields.induct with
  | case1 fields =>
    cases h
    exact hn
  | case2 fields id hint value rest ih =>
    rw [recordFields] at h
    cases htype : n.lower hint with
    | error fault => rw [htype] at h; cases h
    | ok type =>
      rw [htype] at h
      exact ih type h (Table.nodup_enter hn)
  | case3 fields s rest hs ih =>
    rw [recordFields] at h
    · exact ih h hn
    · exact hs

theorem ReadAs.tabular {n : Names} {d : Definition} (h : ReadAs n d) : d.Tabular := by
  cases h with
  | ofAlias value => cases n.lower value <;> trivial
  | ofRecord keywords body =>
    unfold record
    cases totality keywords with
    | error fault => trivial
    | ok total =>
      cases hfields : recordFields n [] body with
      | error fault => simp [bind, Except.bind, toDefinition, Definition.Tabular]
      | ok fields =>
        have hn : fields.keys.Nodup := nodup_recordFields hfields List.nodup_nil
        simpa [hfields, bind, Except.bind, toDefinition, Definition.Tabular] using hn

/-- Whether some statement makes the definition, read with some names. -/
def Read (d : Definition) : Prop :=
  ∃ n, ReadAs n d

theorem read_visit {x : Extraction} (h : ∀ p ∈ x.out.definitions, Read p.2) (s : Statement) :
    ∀ p ∈ (x.visit s).out.definitions, Read p.2 := by
  rcases x.declared_visit s with hs | ⟨name, d, hd, _, hs⟩
  · have hsame : (x.visit s).out.definitions = x.out.definitions := congrArg (·.2.1) hs
    rwa [hsame]
  · have hnew : (x.visit s).out.definitions = x.out.definitions.enter name d :=
      congrArg (·.2.1) hs
    intro p hp
    rw [hnew] at hp
    rcases Table.mem_enter hp with hp | rfl
    · exact h p hp
    · exact ⟨x.names, hd⟩

theorem read_after (module : ModulePath) (isPackage : Bool) (statements : List Statement) :
    ∀ p ∈ (after module isPackage statements).out.definitions, Read p.2 := by
  induction statements using List.reverseRecOn with
  | nil => exact fun p hp => absurd hp List.not_mem_nil
  | append_singleton statements s ih =>
    rw [after_concat]
    exact read_visit ih s

end Extraction

namespace Environment

/-- Whether every definition has a property. -/
def All (P : Definition → Prop) (env : Environment) : Prop :=
  ∀ key d, env.catalog.find? key = some d → P d

variable {P : Definition → Prop} {env : Environment}

theorem All.define (h : env.All P) (key : TypeKey) {d : Definition} (hd : P d) :
    (env.define key d).All P := by
  intro other e he
  by_cases hk : key = other
  · subst hk
    rw [Environment.define, Table.find?_enter_self] at he
    cases he
    exact hd
  · rw [Environment.define, Table.find?_enter_of_ne _ _ hk] at he
    exact h other e he

theorem All.addModule (h : env.All P) (path : ModulePath) {x : ModuleExtract}
    (hx : ∀ p ∈ x.definitions, P p.2) : (env.addModule path x).All P := by
  unfold Environment.addModule
  generalize x.definitions = definitions at hx ⊢
  induction definitions generalizing env with
  | nil => exact h
  | cons p definitions ih =>
    obtain ⟨hp, hrest⟩ := List.forall_mem_cons.mp hx
    exact ih (h.define _ hp) hrest

end Environment

/-- Every definition of a target is made by some statement. -/
theorem ScanTarget.environment_read (t : ScanTarget) : t.environment.All Extraction.Read := by
  have hempty : Environment.empty.All Extraction.Read := fun key d h => by cases h
  unfold environment extracts
  generalize Environment.empty = env at hempty ⊢
  induction t.units generalizing env with
  | nil => exact hempty
  | cons u units ih =>
    have hunit := Extraction.read_after u.path u.isPackage u.tree.body
    exact ih _ (hempty.addModule u.path hunit)

/-- In what a target declares, the fields of every record form a table. -/
theorem ScanTarget.environment_tabular (t : ScanTarget) : t.environment.Tabular := by
  intro key d hd
  obtain ⟨n, hread⟩ := t.environment_read key d hd
  exact hread.tabular

end CallSchema
