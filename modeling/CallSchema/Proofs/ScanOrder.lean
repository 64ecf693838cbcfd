import CallSchema.Proofs.Locality
import CallSchema.Proofs.Outcomes

/-! # Order and kind of a scan

Units with different paths declare nothing under a common name, so the environment they make does
not depend on their order. A function definition therefore has the same outcome in a scan of its
package, in whatever order, and in a scan of its module alone with the others as context.
-/

namespace CallSchema

namespace Environment

variable {env other : Environment} {m path : ModulePath}

theorem AgreeOn.symm {modules : Set ModulePath} (h : AgreeOn modules env other) :
    AgreeOn modules other env :=
  ⟨fun key hk => (h.catalog key hk).symm, fun m hm => (h.scopes m hm).symm⟩

theorem AgreeOn.trans {modules : Set ModulePath} {third : Environment}
    (h : AgreeOn modules env other) (h' : AgreeOn modules other third) :
    AgreeOn modules env third :=
  ⟨fun key hk => (h.catalog key hk).trans (h'.catalog key hk),
    fun m hm => (h.scopes m hm).trans (h'.scopes m hm)⟩

theorem agreeOn_univ (h : ∀ m, AgreeOn {m} env other) : AgreeOn Set.univ env other :=
  ⟨fun key _ => (h key.module).catalog key rfl, fun m _ => (h m).scopes m rfl⟩

/-- A module that is added changes nothing in the others. -/
theorem addModule_agreeOn_of_ne (env : Environment) (x : ModuleExtract) (h : path ≠ m) :
    AgreeOn {m} (env.addModule path x) env := by
  constructor
  · rintro key rfl
    rw [catalog_addModule]
    apply Table.find?_enterAll_of_not_mem
    rintro hmem
    obtain ⟨_, hp, hkey⟩ := List.mem_map.mp hmem
    obtain ⟨p, -, rfl⟩ := List.mem_map.mp hp
    exact h (congrArg TypeKey.module hkey)
  · rintro n rfl
    rw [scopes_addModule]
    exact Table.find?_enter_of_ne _ _ h

/-- What a module has after it is added depends on nothing that other modules have. -/
theorem AgreeOn.addModule (h : AgreeOn {path} env other) (x : ModuleExtract) :
    AgreeOn {path} (env.addModule path x) (other.addModule path x) := by
  constructor
  · intro key hk
    rw [catalog_addModule, catalog_addModule]
    exact Table.find?_enterAll_congr (h.catalog key hk) _
  · rintro n rfl
    rw [scopes_addModule, scopes_addModule, Table.find?_enter_self, Table.find?_enter_self]

theorem addUnits_agreeOn_of_not_mem {units : List SourceUnit}
    (h : m ∉ units.map SourceUnit.path) (env : Environment) :
    AgreeOn {m} (units.foldl addUnit env) env := by
  induction units generalizing env with
  | nil => exact ⟨fun _ _ => rfl, fun _ _ => rfl⟩
  | cons u units ih =>
    obtain ⟨hne, hrest⟩ := not_or.mp (mt List.mem_cons.mpr h)
    exact (ih hrest (env.addUnit u)).trans (addModule_agreeOn_of_ne env u.extract (Ne.symm hne))

/-- Among units with different paths, a module has what its own unit declares. -/
theorem addUnits_agreeOn_of_mem {units : List SourceUnit} (hn : (units.map SourceUnit.path).Nodup)
    {u : SourceUnit} (hu : u ∈ units) (env : Environment) :
    AgreeOn {u.path} (units.foldl addUnit env) (env.addUnit u) := by
  induction units generalizing env with
  | nil => cases hu
  | cons v units ih =>
    obtain ⟨hv, hrest⟩ := List.nodup_cons.mp hn
    rcases List.mem_cons.mp hu with rfl | hu
    · exact addUnits_agreeOn_of_not_mem hv (env.addUnit u)
    · have hne : v.path ≠ u.path := fun he => hv (he ▸ List.mem_map_of_mem hu)
      exact (ih hrest hu (env.addUnit v)).trans
        ((addModule_agreeOn_of_ne env v.extract hne).addModule u.extract)

/-- The order of units with different paths does not matter. -/
theorem addUnits_agreeOn_of_perm {us vs : List SourceUnit} (hperm : us.Perm vs)
    (hn : (us.map SourceUnit.path).Nodup) (env : Environment) :
    AgreeOn Set.univ (us.foldl addUnit env) (vs.foldl addUnit env) := by
  have hn' : (vs.map SourceUnit.path).Nodup := (hperm.map _).nodup_iff.mp hn
  refine agreeOn_univ fun m => ?_
  by_cases hm : m ∈ us.map SourceUnit.path
  · obtain ⟨u, hu, rfl⟩ := List.mem_map.mp hm
    exact (addUnits_agreeOn_of_mem hn hu env).trans
      (addUnits_agreeOn_of_mem hn' (hperm.subset hu) env).symm
  · exact (addUnits_agreeOn_of_not_mem hm env).trans
      (addUnits_agreeOn_of_not_mem (fun hm' => hm ((hperm.map _).mem_iff.mpr hm')) env).symm

end Environment

theorem Candidate.outcome_congr {env other : Environment}
    (h : Environment.AgreeOn Set.univ env other) (hops : Nat) (c : Candidate) :
    c.outcome env hops = c.outcome other hops := by
  unfold outcome compile
  cases c.signature with
  | error fault => rfl
  | ok s =>
    have hclosed : env.Closed Set.univ := fun _ _ n _ => Set.mem_univ n
    rw [run_compileFunction_fresh, run_compileFunction_fresh]
    exact Direct.compileFunction_congr h hclosed hops (Set.mem_univ _)

/-- Below a module, different names have different dotted paths. -/
theorem ModulePath.join_injective {p : ModulePath} {a b : String}
    (h : (p.join a).text = (p.join b).text) : a = b := by
  have hlonger (c : String) : p.text ++ "." ++ c ≠ p.text := by
    intro heq
    have hlength := congrArg String.length heq
    simp only [String.length_append] at hlength
    have hdot : ".".length = 1 := rfl
    omega
  unfold join at h
  split at h
  · exact h
  · split at h <;> split at h
    · rename_i ha hb
      rw [String.isEmpty_iff.mp ha, String.isEmpty_iff.mp hb]
    · exact absurd h.symm (hlonger b)
    · exact absurd h (hlonger a)
    · exact (String.append_right_inj (p.text ++ ".")).mp h

/-- The outcome under the qualified key of the function. -/
def Outcome.qualified (o : Outcome) : Outcome :=
  { o with key := (o.module.join o.key).text }

def Diagnostic.qualified (d : Diagnostic) : Diagnostic :=
  { d with function := (d.module.join d.function).text }

theorem Outcome.diagnostic?_qualified (o : Outcome) :
    o.qualified.diagnostic? = o.diagnostic?.map Diagnostic.qualified := by
  unfold diagnostic? qualified
  cases o.result <;> rfl

namespace ScanTarget

/-- The schemas under a key are the last among the outcomes with that key. -/
theorem find?_schemas (t : ScanTarget) (filter : NameFilter) (hops : Nat) (key : String) :
    (t.compile filter hops).schemas.find? key =
      (((t.outcomes filter hops).filter fun o => decide (o.key = key)).filterMap
        fun o => o.result.toOption).getLast? := by
  have hentries := filter_filterMap_eq (f := Outcome.entry?) (p := fun e => decide (e.1 = key))
    (q := fun o => decide (o.key = key)) (fun o e he => by rw [Outcome.key_of_entry? he])
    (t.outcomes filter hops)
  have hsnd : (fun o : Outcome => o.entry?.map Prod.snd) = fun o => o.result.toOption := by
    funext o
    unfold Outcome.entry?
    cases o.result <;> rfl
  rw [compile_eq_ofOutcomes, Compilation.ofOutcomes, Table.find?_ofList, ← List.head?_filter,
    List.filter_reverse, List.head?_reverse, hentries, ← List.getLast?_map, List.map_filterMap,
    hsnd]

theorem allowsUnit_allowAll (t : ScanTarget) (u : SourceUnit) :
    t.allowsUnit .allowAll u = true := by
  unfold allowsUnit
  split
  · rfl
  · exact List.all_eq_true.mpr fun _ _ => rfl

theorem unitCandidates_allowAll (t : ScanTarget) {u : SourceUnit} (hu : u.contextOnly = false) :
    t.unitCandidates .allowAll u u.extract = u.extract.functions.map fun f =>
      ⟨t.functionKey u.path f.name, u.path, f.position, f.signature⟩ := by
  have hall : (u.extract.functions.filter fun f => NameFilter.allowAll.allows .function f.name) =
      u.extract.functions := List.filter_eq_self.mpr fun _ _ => rfl
  unfold unitCandidates
  rw [hu, allowsUnit_allowAll, hall]
  rfl

/-- In a scan of one module, the candidates are the functions of the module. -/
theorem candidates_ofModule {u : SourceUnit} (hu : u.contextOnly = false)
    (siblings : List SourceUnit) :
    (ofModule u siblings).candidates .allowAll = u.extract.functions.map fun f =>
      ⟨f.name, u.path, f.position, f.signature⟩ := by
  have hcontext : ((siblings.map fun s => { s with contextOnly := true }).flatMap fun v =>
      (ofModule u siblings).unitCandidates .allowAll v v.extract) = [] := by
    rw [List.flatMap_map, List.flatMap_eq_nil_iff]
    exact fun s _ => rfl
  have hunits : (ofModule u siblings).units =
      u :: siblings.map fun s => { s with contextOnly := true } := rfl
  rw [candidates_eq_flatMap, hunits, List.flatMap_cons, hcontext, List.append_nil,
    unitCandidates_allowAll _ hu]
  rfl

/-- A scan of one module has an outcome for each function definition of the module, in order. -/
theorem outcomes_ofModule {u : SourceUnit} (hu : u.contextOnly = false)
    (siblings : List SourceUnit) (hops : Nat) :
    (((ofModule u siblings).outcomes .allowAll hops).map fun o => (o.key, o.module, o.position)) =
      u.tree.functions.map fun site =>
        (site.definition.name, u.path, site.definition.position) := by
  rw [outcomes_eq, candidates_ofModule hu, List.map_map, List.map_map, SourceUnit.extract,
    SyntaxTree.extract_functions, List.map_map]
  rfl

theorem module_of_mem_unitCandidates {t : ScanTarget} {filter : NameFilter} {u : SourceUnit}
    {c : Candidate} (h : c ∈ t.unitCandidates filter u u.extract) : c.module = u.path := by
  unfold unitCandidates at h
  split at h
  · cases h
  · obtain ⟨f, -, rfl⟩ := List.mem_map.mp h
    rfl

/-- Among units with different paths, the candidates of a module are those of its unit. -/
theorem filter_candidates {t : ScanTarget} {filter : NameFilter}
    (hn : (t.units.map SourceUnit.path).Nodup) {u : SourceUnit} (hu : u ∈ t.units) :
    ((t.candidates filter).filter fun c => decide (c.module = u.path)) =
      t.unitCandidates filter u u.extract := by
  rw [candidates_eq_flatMap]
  generalize t.units = units at hn hu ⊢
  induction units with
  | nil => cases hu
  | cons v units ih =>
    obtain ⟨hv, hrest⟩ := List.nodup_cons.mp hn
    rw [List.flatMap_cons, List.filter_append]
    rcases List.mem_cons.mp hu with rfl | hu
    · have hown : ((t.unitCandidates filter u u.extract).filter fun c =>
          decide (c.module = u.path)) = t.unitCandidates filter u u.extract :=
        List.filter_eq_self.mpr fun c hc => by simpa using module_of_mem_unitCandidates hc
      have hothers : ((units.flatMap fun w => t.unitCandidates filter w w.extract).filter fun c =>
          decide (c.module = u.path)) = [] := by
        refine List.filter_eq_nil_iff.mpr fun c hc hmodule => hv ?_
        obtain ⟨w, hw, hc⟩ := List.mem_flatMap.mp hc
        rw [← of_decide_eq_true hmodule, module_of_mem_unitCandidates hc]
        exact List.mem_map_of_mem hw
      rw [hown, hothers, List.append_nil]
    · have hother : ((t.unitCandidates filter v v.extract).filter fun c =>
          decide (c.module = u.path)) = [] := by
        refine List.filter_eq_nil_iff.mpr fun c hc hmodule => hv ?_
        rw [← module_of_mem_unitCandidates hc, of_decide_eq_true hmodule]
        exact List.mem_map_of_mem hu
      rw [hother, List.nil_append]
      exact ih hrest hu

theorem environment_agreeOn_of_perm {units order siblings : List SourceUnit} {u : SourceUnit}
    (hpaths : (units.map SourceUnit.path).Nodup) (horder : order.Perm units)
    (hsiblings : (u :: siblings).Perm units) (root : ModulePath) :
    Environment.AgreeOn Set.univ (ofPackage root order).environment
      (ofModule u siblings).environment := by
  have hn : (order.map SourceUnit.path).Nodup := (horder.map _).nodup_iff.mpr hpaths
  have hmodule : (ofModule u siblings).environment =
      (u :: siblings).foldl Environment.addUnit .empty := by
    have hunits : (ofModule u siblings).units =
        u :: siblings.map fun s => { s with contextOnly := true } := rfl
    rw [environment_eq, hunits, List.foldl_cons, List.foldl_cons, List.foldl_map]
    rfl
  rw [hmodule, environment_eq]
  exact Environment.addUnits_agreeOn_of_perm (horder.trans hsiblings.symm) hn _

section

variable {units order siblings : List SourceUnit} {u : SourceUnit}
  (hpaths : (units.map SourceUnit.path).Nodup) (horder : order.Perm units)
  (hsiblings : (u :: siblings).Perm units) (hfull : u.contextOnly = false) (root : ModulePath)
  (hops : Nat)

include hpaths horder hsiblings hfull

/-- In a scan of the package, the functions of a module have the outcomes they have in a scan of the
module. -/
theorem outcomes_ofPackage :
    (((ofPackage root order).outcomes .allowAll hops).filter fun o => decide (o.module = u.path)) =
      ((ofModule u siblings).outcomes .allowAll hops).map Outcome.qualified := by
  have hn : (order.map SourceUnit.path).Nodup := (horder.map _).nodup_iff.mpr hpaths
  have hu : u ∈ order := horder.mem_iff.mpr (hsiblings.mem_iff.mp List.mem_cons_self)
  have hcandidates : (((ofPackage root order).candidates .allowAll).filter fun c =>
      decide (c.module = u.path)) =
        (ofPackage root order).unitCandidates .allowAll u u.extract := filter_candidates hn hu
  have hresult := Candidate.outcome_congr
    (environment_agreeOn_of_perm hpaths horder hsiblings root) hops
  rw [outcomes_eq, outcomes_eq, List.filter_map, candidates_ofModule hfull, List.map_map,
    List.map_map]
  change ((((ofPackage root order).candidates .allowAll).filter fun c =>
      decide (c.module = u.path)).map _) = _
  rw [hcandidates, unitCandidates_allowAll _ hfull, List.map_map]
  refine List.map_congr_left fun f _ => ?_
  exact congrArg (Outcome.mk (u.path.join f.name).text u.path f.position) (hresult _)

theorem diagnostics_ofPackage :
    (((ofPackage root order).compile .allowAll hops).diagnostics.filter fun d =>
        decide (d.module = u.path)) =
      ((ofModule u siblings).compile .allowAll hops).diagnostics.map Diagnostic.qualified := by
  have houtcomes := outcomes_ofPackage hpaths horder hsiblings hfull root hops
  rw [compile_eq_ofOutcomes, compile_eq_ofOutcomes, Compilation.ofOutcomes, Compilation.ofOutcomes,
    filter_filterMap_eq (fun o d hd => by rw [(Outcome.of_diagnostic? hd).2]), houtcomes,
    List.filterMap_map, List.map_filterMap]
  simp only [Function.comp_def, Outcome.diagnostic?_qualified]

/-- A key that no other module uses has the schemas that the bare name has in a scan of the
module. -/
theorem schemas_ofPackage {name : String}
    (hown : ∀ o ∈ (ofPackage root order).outcomes .allowAll hops,
      o.key = (u.path.join name).text → o.module = u.path) :
    ((ofPackage root order).compile .allowAll hops).schemas.find? (u.path.join name).text =
      ((ofModule u siblings).compile .allowAll hops).schemas.find? name := by
  have houtcomes := outcomes_ofPackage hpaths horder hsiblings hfull root hops
  have hmodule : ∀ o ∈ (ofModule u siblings).outcomes .allowAll hops, o.module = u.path := by
    intro o ho
    have hmem := List.mem_map_of_mem (f := fun o : Outcome => (o.key, o.module, o.position)) ho
    rw [outcomes_ofModule hfull] at hmem
    obtain ⟨site, -, hsite⟩ := List.mem_map.mp hmem
    exact (congrArg (·.2.1) hsite).symm
  have hkey : (((ofPackage root order).outcomes .allowAll hops).filter fun o =>
      decide (o.key = (u.path.join name).text)) =
        (((ofModule u siblings).outcomes .allowAll hops).filter fun o =>
          decide (o.key = name)).map Outcome.qualified := by
    calc ((ofPackage root order).outcomes .allowAll hops).filter _
      _ = ((((ofPackage root order).outcomes .allowAll hops).filter fun o =>
            decide (o.module = u.path)).filter fun o =>
            decide (o.key = (u.path.join name).text)) := by
          rw [List.filter_filter]
          refine List.filter_congr fun o ho => ?_
          by_cases hk : o.key = (u.path.join name).text
          · simp [hk, hown o ho hk]
          · simp [hk]
      _ = (((ofModule u siblings).outcomes .allowAll hops).filter fun o =>
            decide ((o.module.join o.key).text = (u.path.join name).text)).map
            Outcome.qualified := by
          rw [houtcomes, List.filter_map]
          rfl
      _ = _ := by
          congr 1
          refine List.filter_congr fun o ho => ?_
          rw [hmodule o ho]
          exact decide_eq_decide.mpr ⟨ModulePath.join_injective, fun he => by rw [he]⟩
  rw [find?_schemas, find?_schemas, hkey, List.filterMap_map]
  rfl

end

/-- Neither the order of the units nor the kind of the scan changes an outcome. Let units have
different paths, and let `u` be one of them that is compiled. In a scan of the package, in any
order, the function definitions of `u` have one by one the outcomes that they have in a scan of the
module `u` alone with the others, in any order, as its context; only the keys are qualified. So the
reports on them are the same, and so are their schemas, unless another module uses the same key. -/
theorem outcome_scan_independent (units order siblings : List SourceUnit) (u : SourceUnit)
    (hpaths : (units.map SourceUnit.path).Nodup) (horder : order.Perm units)
    (hsiblings : (u :: siblings).Perm units) (hfull : u.contextOnly = false) (root : ModulePath)
    (hops : Nat) :
    (((ofModule u siblings).outcomes .allowAll hops).map fun o => (o.key, o.module, o.position)) =
        (u.tree.functions.map fun site =>
          (site.definition.name, u.path, site.definition.position)) ∧
      (((ofPackage root order).outcomes .allowAll hops).filter fun o =>
          decide (o.module = u.path)) =
        ((ofModule u siblings).outcomes .allowAll hops).map Outcome.qualified ∧
      (((ofPackage root order).compile .allowAll hops).diagnostics.filter fun d =>
          decide (d.module = u.path)) =
        ((ofModule u siblings).compile .allowAll hops).diagnostics.map Diagnostic.qualified ∧
      ∀ name, (∀ o ∈ (ofPackage root order).outcomes .allowAll hops,
          o.key = (u.path.join name).text → o.module = u.path) →
        ((ofPackage root order).compile .allowAll hops).schemas.find? (u.path.join name).text =
          ((ofModule u siblings).compile .allowAll hops).schemas.find? name :=
  ⟨outcomes_ofModule hfull siblings hops,
    outcomes_ofPackage hpaths horder hsiblings hfull root hops,
    diagnostics_ofPackage hpaths horder hsiblings hfull root hops,
    fun _ => schemas_ofPackage hpaths horder hsiblings hfull root hops⟩

theorem outcome_scan_independent_service :
    ([SourceUnit.ports, .service].map SourceUnit.path).Nodup ∧
      (((ofModule .service [.ports]).compile .allowAll 16).diagnostics.map Diagnostic.function) =
        ["stop"] ∧
      (((ofPackage ⟨"pkg"⟩ [.service, .ports]).compile .allowAll 16).diagnostics.filter fun d =>
          decide (d.module = SourceUnit.service.path)) =
        ((ofModule .service [.ports]).compile .allowAll 16).diagnostics.map
          Diagnostic.qualified := by
  have hpaths : ([SourceUnit.ports, .service].map SourceUnit.path).Nodup := by decide
  refine ⟨hpaths, by decide +kernel, ?_⟩
  exact (outcome_scan_independent [.ports, .service] [.service, .ports] [.ports] .service hpaths
    (.swap _ _ _) (.swap _ _ _) rfl ⟨"pkg"⟩ 16).2.2.1

end ScanTarget

end CallSchema
