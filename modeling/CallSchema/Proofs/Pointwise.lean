import CallSchema.Proofs.Declarations
import CallSchema.Proofs.Memo

/-! # Compilation is pointwise

Every selected function has an outcome of its own: the fault of its signature, or what a new
resolver makes of it with the definitions and imports of all units. A compilation lists the faults
in order and enters the schemas in order, and nothing of one function shows in the outcome of
another.
-/

namespace CallSchema

/-- What the unit declares. -/
def SourceUnit.extract (u : SourceUnit) : ModuleExtract :=
  u.tree.extract u.path u.isPackage

namespace Environment

/-- The definitions and imports that units declare, in order. What is declared again keeps its place
and is as declared last. -/
def ofUnits (units : List SourceUnit) : Environment where
  catalog := .ofList (units.flatMap fun u =>
    u.extract.definitions.map fun (name, d) => (⟨u.path, name⟩, d))
  scopes := .ofList (units.map fun u => (u.path, u.extract.scope))

theorem catalog_addModule (env : Environment) (path : ModulePath) (x : ModuleExtract) :
    (env.addModule path x).catalog =
      env.catalog.enterAll (x.definitions.map fun p => (⟨path, p.1⟩, p.2)) := by
  unfold addModule addScope
  induction x.definitions generalizing env with
  | nil => rfl
  | cons p definitions ih => exact ih (env.define ⟨path, p.1⟩ p.2)

theorem scopes_addModule (env : Environment) (path : ModulePath) (x : ModuleExtract) :
    (env.addModule path x).scopes = env.scopes.enter path x.scope := by
  unfold addModule addScope
  induction x.definitions generalizing env with
  | nil => rfl
  | cons p definitions ih => exact ih (env.define ⟨path, p.1⟩ p.2)

/-- Adds what a unit declares. -/
def addUnit (env : Environment) (u : SourceUnit) : Environment :=
  env.addModule u.path u.extract

theorem foldl_addUnit (env : Environment) (units : List SourceUnit) :
    units.foldl addUnit env =
      ⟨env.catalog.enterAll (units.flatMap fun u =>
          u.extract.definitions.map fun (name, d) => (⟨u.path, name⟩, d)),
        env.scopes.enterAll (units.map fun u => (u.path, u.extract.scope))⟩ := by
  induction units generalizing env with
  | nil => rfl
  | cons u units ih =>
    rw [List.foldl_cons, ih, addUnit, catalog_addModule, scopes_addModule, List.flatMap_cons,
      Table.enterAll_append]
    rfl

end Environment

namespace ScanTarget

theorem environment_eq (t : ScanTarget) :
    t.environment = t.units.foldl Environment.addUnit .empty := by
  unfold environment extracts
  rw [List.foldl_map]
  rfl

/-- The environment of a target has what all its units declare, whether they are compiled or not. -/
theorem environment_eq_ofUnits (t : ScanTarget) : t.environment = .ofUnits t.units :=
  t.environment_eq.trans (Environment.foldl_addUnit .empty t.units)

end ScanTarget

/-- A function definition of a unit that is compiled. -/
structure Selected where
  unit : SourceUnit
  site : FunctionSite

/-- The function definitions to compile, by unit and then by place. -/
def ScanTarget.selected (t : ScanTarget) (filter : NameFilter) : List Selected :=
  (t.units.filter fun u => !u.contextOnly && t.allowsUnit filter u).flatMap fun u =>
    (u.tree.functions.filter fun site => filter.allows .function site.definition.name).map
      fun site => ⟨u, site⟩

namespace Selected

/-- The signature, or why there is none. -/
def signature (s : Selected) : Except Fault Signature :=
  Extraction.signature (Extraction.after s.unit.path s.unit.isPackage s.site.before).names
    s.unit.path s.site.definition

/-- What a new resolver makes of the function, with what all units of the target declare. -/
def outcome (t : ScanTarget) (hops : Nat) (s : Selected) : Except Fault FunctionSchema :=
  match s.signature with
  | .ok signature => (((Environment.ofUnits t.units).compileFunction hops signature).run .fresh).1
  | .error fault => .error fault

def key (t : ScanTarget) (s : Selected) : String :=
  t.functionKey s.unit.path s.site.definition.name

/-- The report on a function without schemas. -/
def diagnostic? (t : ScanTarget) (hops : Nat) (s : Selected) : Option Diagnostic :=
  match s.outcome t hops with
  | .ok _ => none
  | .error fault => some ⟨s.key t, s.unit.path, s.site.definition.position, fault⟩

/-- The entry of a function with schemas. -/
def entry? (t : ScanTarget) (hops : Nat) (s : Selected) : Option (String × FunctionSchema) :=
  match s.outcome t hops with
  | .ok schema => some (s.key t, schema)
  | .error _ => none

def candidate (t : ScanTarget) (s : Selected) : Candidate :=
  ⟨s.key t, s.unit.path, s.site.definition.position, s.signature⟩

end Selected

namespace ScanTarget

theorem unitCandidates_eq (t : ScanTarget) (filter : NameFilter) (u : SourceUnit) :
    t.unitCandidates filter u (u.tree.extract u.path u.isPackage) =
      if !u.contextOnly && t.allowsUnit filter u then
        ((u.tree.functions.filter fun site => filter.allows .function site.definition.name).map
          fun site => (⟨u, site⟩ : Selected)).map (Selected.candidate t)
      else [] := by
  unfold unitCandidates
  rw [u.tree.extract_functions, List.filter_map, List.map_map, List.map_map]
  cases u.contextOnly <;> cases t.allowsUnit filter u <;> rfl

theorem candidates_eq (t : ScanTarget) (filter : NameFilter) :
    t.candidates filter = (t.selected filter).map (Selected.candidate t) := by
  unfold candidates extracts selected
  rw [List.map_flatMap, List.flatMap_map]
  simp only [unitCandidates_eq]
  induction t.units with
  | nil => rfl
  | cons u units ih =>
    rw [List.flatMap_cons, ih, List.filter_cons]
    split <;> rfl

end ScanTarget

/-- The outcome of a candidate with a new resolver. -/
def Candidate.outcome (env : Environment) (hops : Nat) (c : Candidate) :
    Except Fault FunctionSchema :=
  ((c.compile env hops).run .fresh).1

namespace Compilation

variable {env : Environment} {hops : Nat}

theorem candidate_agrees (c : Candidate) :
    Agrees (Resolver.Valid env hops []) (c.compile env hops) (c.outcome env hops) := by
  have hagrees : ∃ result, Agrees (Resolver.Valid env hops []) (c.compile env hops) result := by
    unfold Candidate.compile
    split
    · exact ⟨_, compileFunction_agrees _⟩
    · exact ⟨_, agrees_throw _⟩
  obtain ⟨result, h⟩ := hagrees
  have hfresh : c.outcome env hops = result := (h .fresh (Resolver.fresh_valid env hops)).1
  exact hfresh ▸ h

theorem run_of_valid {r : Resolver} (hr : r.Valid env hops []) (out : Compilation)
    (cs : List Candidate) :
    run env hops r out cs = cs.foldl (fun out c => out.add c (c.outcome env hops)) out := by
  induction cs generalizing r out with
  | nil => rfl
  | cons c cs ih =>
    obtain ⟨hresult, hafter⟩ := candidate_agrees c r hr
    rw [List.foldl_cons, ← hresult, ← ih hafter]
    rfl

theorem foldl_add (f : Candidate → Except Fault FunctionSchema) (out : Compilation)
    (cs : List Candidate) :
    cs.foldl (fun out c => out.add c (f c)) out =
      ⟨out.schemas.enterAll (cs.filterMap fun c =>
          match f c with
          | .ok schema => some (c.key, schema)
          | .error _ => none),
        out.diagnostics ++ cs.filterMap fun c =>
          match f c with
          | .ok _ => none
          | .error fault => some ⟨c.key, c.module, c.position, fault⟩⟩ := by
  induction cs generalizing out with
  | nil => simp [Table.enterAll]
  | cons c cs ih =>
    rw [List.foldl_cons, ih]
    cases h : f c with
    | ok schema => simp [h, add, Table.enterAll]
    | error fault => simp [h, add]

end Compilation

theorem Selected.outcome_candidate (t : ScanTarget) (hops : Nat) (s : Selected) :
    (s.candidate t).outcome t.environment hops = s.outcome t hops := by
  unfold Candidate.outcome Candidate.compile outcome candidate
  rw [t.environment_eq_ofUnits]
  cases s.signature <;> rfl

theorem ScanTarget.compile_eq (t : ScanTarget) (filter : NameFilter) (hops : Nat) :
    t.compile filter hops =
      ⟨.ofList ((t.selected filter).filterMap (Selected.entry? t hops)),
        (t.selected filter).filterMap (Selected.diagnostic? t hops)⟩ := by
  unfold compile
  rw [Compilation.run_of_valid (Resolver.fresh_valid _ hops), Compilation.foldl_add,
    t.candidates_eq filter, List.filterMap_map, List.filterMap_map]
  simp only [Function.comp_def, Selected.outcome_candidate]
  rfl

/-- A function with schemas has a signature, and the schemas are those of the signature. -/
theorem Selected.outcome_eq_ok {t : ScanTarget} {hops : Nat} {s : Selected} {f : FunctionSchema}
    (h : s.outcome t hops = .ok f) :
    ∃ signature, s.signature = .ok signature ∧
      Direct.compileFunction t.environment hops signature = .ok f := by
  unfold outcome at h
  rw [← t.environment_eq_ofUnits] at h
  split at h
  · rename_i signature hs
    have hfresh := (compileFunction_agrees signature .fresh
      (Resolver.fresh_valid t.environment hops)).1
    exact ⟨signature, hs, hfresh.symm.trans h⟩
  · cases h

/-- Every entry of a compilation is the outcome of a function definition. -/
theorem ScanTarget.exists_outcome {t : ScanTarget} {filter : NameFilter} {hops : Nat}
    {entry : String × FunctionSchema} (h : entry ∈ (t.compile filter hops).schemas) :
    ∃ s ∈ t.selected filter, s.key t = entry.1 ∧ s.outcome t hops = .ok entry.2 := by
  rw [t.compile_eq filter hops] at h
  obtain ⟨s, hs, hentry⟩ := List.mem_filterMap.mp (Table.mem_of_mem_ofList h)
  unfold Selected.entry? at hentry
  split at hentry
  · rename_i f hf
    cases hentry
    exact ⟨s, hs, rfl, hf⟩
  · cases hentry

/-- A compilation reports the functions that have a fault, in order, and enters the schemas of the
others, in order: a key that occurs again keeps its place and takes the later schemas. -/
theorem ScanTarget.compile_pointwise (t : ScanTarget) (filter : NameFilter) (hops : Nat) :
    (t.compile filter hops).diagnostics =
        (t.selected filter).filterMap (Selected.diagnostic? t hops) ∧
      (t.compile filter hops).schemas =
        .ofList ((t.selected filter).filterMap (Selected.entry? t hops)) ∧
      (t.compile filter hops).schemas.keys =
        (((t.selected filter).filterMap (Selected.entry? t hops)).map Prod.fst).eraseDups ∧
      ∀ key, (t.compile filter hops).schemas.find? key =
        (((t.selected filter).filterMap (Selected.entry? t hops)).reverse.find?
          fun p => decide (p.1 = key)).map Prod.snd := by
  rw [t.compile_eq filter hops]
  exact ⟨rfl, rfl, Table.keys_ofList _, Table.find?_ofList _⟩

end CallSchema
