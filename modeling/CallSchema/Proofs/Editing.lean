import Mathlib.Data.List.Flatten
import CallSchema.Proofs.Outcomes

/-! # Editing a target

No statement reads the functions that were extracted before it, so a function definition can be
taken out of a module without a change to what else the module declares. The candidates that
remain, like those that a narrower filter leaves, keep their outcomes and their order.
-/

namespace CallSchema

namespace Extraction

/-- The same state with other functions extracted so far. -/
def withFunctions (x : Extraction) (functions : List ExtractedFunction) : Extraction :=
  { x with out := { x.out with functions } }

variable (x : Extraction) (fs : List ExtractedFunction)

theorem foldl_withFunctions {α : Type} {f : Extraction → α → Extraction}
    (h : ∀ x a, f (x.withFunctions fs) a = (f x a).withFunctions fs) (as : List α) :
    as.foldl f (x.withFunctions fs) = (as.foldl f x).withFunctions fs := by
  induction as generalizing x with
  | nil => rfl
  | cons a as ih => rw [List.foldl_cons, List.foldl_cons, h, ih]

theorem importModule_withFunctions (i : ImportedName) :
    (x.withFunctions fs).importModule i = (x.importModule i).withFunctions fs := by
  unfold importModule
  split <;> rfl

theorem importFrom_withFunctions (module : Option String) (level : Nat)
    (names : List ImportedName) :
    (x.withFunctions fs).importFrom module level names =
      (x.importFrom module level names).withFunctions fs := by
  have hrelative :
      (x.withFunctions fs).module.relative (x.withFunctions fs).isPackage level module =
        x.module.relative x.isPackage level module := rfl
  unfold importFrom
  rw [hrelative]
  split
  · split
    · split
      · rfl
      · refine foldl_withFunctions x fs (fun x i => ?_) _
        split <;> rfl
    · rfl
  · split
    · exact foldl_withFunctions x fs (fun x i => rfl) _
    · rfl

theorem assign_withFunctions (targets : List Expression) (value : Expression) :
    (x.withFunctions fs).assign targets value = (x.assign targets value).withFunctions fs := by
  have hdenotes : (x.withFunctions fs).denotesType value = x.denotesType value := by
    cases value <;> rfl
  unfold assign
  rw [hdenotes]
  split
  · split <;> rfl
  · rfl

theorem classDef_withFunctions (name : String) (bases : List Expression)
    (keywords : List ClassKeyword) (body : List Statement) :
    (x.withFunctions fs).classDef name bases keywords body =
      (x.classDef name bases keywords body).withFunctions fs := by
  have htyping : (x.withFunctions fs).typing = x.typing := rfl
  unfold classDef
  rw [htyping]
  split <;> rfl

/-- A statement reads nothing of the functions before it and adds its own. -/
theorem visit_withFunctions (s : Statement) :
    (x.withFunctions fs).visit s = (x.visit s).withFunctions (fs ++ x.defined s) := by
  have hnone (y : Extraction) : y.withFunctions (fs ++ []) = y.withFunctions fs := by
    rw [List.append_nil]
  cases s with
  | functionDef f => rfl
  | importModules names =>
    exact (foldl_withFunctions x fs (fun x i => importModule_withFunctions x fs i) names).trans
      (hnone _).symm
  | importFrom module level names =>
    exact (importFrom_withFunctions x fs module level.toNat names).trans (hnone _).symm
  | assign targets value => exact (assign_withFunctions x fs targets value).trans (hnone _).symm
  | classDef name bases keywords body =>
    exact (classDef_withFunctions x fs name bases keywords body).trans (hnone _).symm
  | declare target hint value => exact (hnone x).symm
  | other => exact (hnone x).symm

/-- So do statements one after the other. -/
theorem exists_foldl_visit (ss : List Statement) :
    ∃ added, ∀ fs, ss.foldl visit (x.withFunctions fs) =
      (ss.foldl visit x).withFunctions (fs ++ added) := by
  induction ss generalizing x with
  | nil => exact ⟨[], fun fs => by rw [List.append_nil]; rfl⟩
  | cons s ss ih =>
    obtain ⟨added, hadded⟩ := ih (x.visit s)
    refine ⟨x.defined s ++ added, fun fs => ?_⟩
    rw [List.foldl_cons, List.foldl_cons, visit_withFunctions, hadded, List.append_assoc]

end Extraction

/-- The tree without its statement at place `j`. -/
def SyntaxTree.eraseStatement (t : SyntaxTree) (j : Nat) : SyntaxTree :=
  ⟨t.body.eraseIdx j⟩

/-- Without a function definition a module declares what it declared, less that function. -/
theorem SyntaxTree.extract_eraseStatement {t : SyntaxTree} {j : Nat} {f : FunctionDef}
    (h : t.body[j]? = some (.functionDef f)) (m : ModulePath) (isPackage : Bool) :
    ∃ front own back, own.name = f.name ∧ (t.extract m isPackage).functions = front ++ own :: back ∧
      (t.eraseStatement j).extract m isPackage =
        { t.extract m isPackage with functions := front ++ back } := by
  let x := Extraction.after m isPackage (t.body.take j)
  let own : ExtractedFunction := ⟨f.name, f.position, Extraction.signature x.names x.module f⟩
  obtain ⟨added, hadded⟩ := x.exists_foldl_visit (t.body.drop (j + 1))
  have hwith : t.extract m isPackage =
      (((t.body.drop (j + 1)).foldl Extraction.visit x).withFunctions
        (x.out.functions ++ [own] ++ added)).out := by
    rw [← hadded, SyntaxTree.extract]
    nth_rewrite 1 [eq_take_append_cons h]
    rw [List.foldl_append]
    rfl
  have hwithout : (t.eraseStatement j).extract m isPackage =
      (((t.body.drop (j + 1)).foldl Extraction.visit x).withFunctions
        (x.out.functions ++ added)).out := by
    rw [← hadded, SyntaxTree.extract, eraseStatement, List.eraseIdx_eq_take_drop_succ,
      List.foldl_append]
    rfl
  refine ⟨x.out.functions, own, added, rfl, ?_, ?_⟩
  · rw [hwith]
    simp [Extraction.withFunctions]
  · rw [hwith, hwithout]
    rfl

def SourceUnit.eraseStatement (u : SourceUnit) (j : Nat) : SourceUnit :=
  { u with tree := u.tree.eraseStatement j }

namespace ScanTarget

/-- The target without the statement at place `j` of its unit at place `i`. -/
def eraseStatement (t : ScanTarget) (i j : Nat) : ScanTarget :=
  { t with units := t.units.modify i fun u => u.eraseStatement j }

/-- Whether a function definition in a unit is a candidate. -/
def selects (t : ScanTarget) (filter : NameFilter) (u : SourceUnit) (f : FunctionDef) : Bool :=
  !u.contextOnly && t.allowsUnit filter u && filter.allows .function f.name

section

variable (t : ScanTarget) (filter : NameFilter) (u : SourceUnit) (x : ModuleExtract)

theorem unitCandidates_append (fs gs : List ExtractedFunction) :
    t.unitCandidates filter u { x with functions := fs ++ gs } =
      t.unitCandidates filter u { x with functions := fs } ++
        t.unitCandidates filter u { x with functions := gs } := by
  unfold unitCandidates
  split
  · rfl
  · simp

theorem keys_unitCandidates_singleton {own : ExtractedFunction} {f : FunctionDef}
    (hname : own.name = f.name) :
    (t.unitCandidates filter u { x with functions := [own] }).map Candidate.key =
      if t.selects filter u f then [t.functionKey u.path f.name] else [] := by
  unfold unitCandidates selects
  cases u.contextOnly <;> cases t.allowsUnit filter u <;>
    cases hallows : filter.allows .function f.name <;> simp [hname, hallows]

end

section

variable {t : ScanTarget} {i j : Nat} {u : SourceUnit} {f : FunctionDef}

/-- Erasing a function definition takes its candidate, if it is one, from those of its unit. -/
theorem unitCandidates_eraseStatement (t : ScanTarget) (filter : NameFilter)
    (hf : u.tree.body[j]? = some (.functionDef f)) :
    ∃ front own back, t.unitCandidates filter u u.extract = front ++ own ++ back ∧
      t.unitCandidates filter (u.eraseStatement j) (u.eraseStatement j).extract = front ++ back ∧
      own.map Candidate.key =
        if t.selects filter u f then [t.functionKey u.path f.name] else [] := by
  obtain ⟨front, own, back, hname, hfunctions, herase⟩ :=
    SyntaxTree.extract_eraseStatement hf u.path u.isPackage
  have hwith : u.extract = { u.extract with functions := front ++ ([own] ++ back) } := by
    rw [List.singleton_append, ← hfunctions]
    rfl
  have hwithout : t.unitCandidates filter (u.eraseStatement j) (u.eraseStatement j).extract =
      t.unitCandidates filter u { u.extract with functions := front ++ back } :=
    congrArg (t.unitCandidates filter u) herase
  refine ⟨t.unitCandidates filter u { u.extract with functions := front },
    t.unitCandidates filter u { u.extract with functions := [own] },
    t.unitCandidates filter u { u.extract with functions := back }, ?_, ?_,
    keys_unitCandidates_singleton t filter u u.extract hname⟩
  · rw [List.append_assoc, ← unitCandidates_append, ← unitCandidates_append, ← hwith]
  · rw [hwithout, unitCandidates_append]

variable (hu : t.units[i]? = some u) (hf : u.tree.body[j]? = some (.functionDef f))

include hu

theorem units_eraseStatement (j : Nat) : (t.eraseStatement i j).units =
    t.units.take i ++ u.eraseStatement j :: t.units.drop (i + 1) := by
  obtain ⟨hi, hget⟩ := List.getElem?_eq_some_iff.mp hu
  rw [eraseStatement, List.modify_eq_take_cons_drop hi, hget]

include hf

theorem environment_eraseStatement : (t.eraseStatement i j).environment = t.environment := by
  obtain ⟨front, own, back, -, -, herase⟩ :=
    SyntaxTree.extract_eraseStatement hf u.path u.isPackage
  have hunit (env : Environment) : env.addUnit (u.eraseStatement j) = env.addUnit u := by
    change env.addModule u.path ((u.tree.eraseStatement j).extract u.path u.isPackage) = _
    rw [herase]
    rfl
  rw [environment_eq, environment_eq, units_eraseStatement hu, List.foldl_append, List.foldl_cons,
    hunit]
  nth_rewrite 3 [eq_take_append_cons hu]
  rw [List.foldl_append, List.foldl_cons]

theorem candidates_eraseStatement (filter : NameFilter) :
    ∃ front own back, t.candidates filter = front ++ own ++ back ∧
      (t.eraseStatement i j).candidates filter = front ++ back ∧
      own.map Candidate.key =
        if t.selects filter u f then [t.functionKey u.path f.name] else [] := by
  obtain ⟨front, own, back, hwith, hwithout, hkey⟩ := unitCandidates_eraseStatement t filter hf
  let others (us : List SourceUnit) : List Candidate :=
    us.flatMap fun v => t.unitCandidates filter v v.extract
  refine ⟨others (t.units.take i) ++ front, own, back ++ others (t.units.drop (i + 1)),
    ?_, ?_, hkey⟩
  · rw [candidates_eq_flatMap]
    nth_rewrite 1 [eq_take_append_cons hu]
    rw [List.flatMap_append, List.flatMap_cons, hwith]
    simp only [others, List.append_assoc]
  · have hsame : (t.eraseStatement i j).unitCandidates filter = t.unitCandidates filter := rfl
    rw [candidates_eq_flatMap, units_eraseStatement hu, List.flatMap_append, List.flatMap_cons,
      hsame, hwithout]
    simp only [others, List.append_assoc]

/-- Without a function definition the others are compiled as before. -/
theorem compile_eraseStatement (filter : NameFilter) (hops : Nat)
    (hn : ((t.candidates filter).map Candidate.key).Nodup) :
    (t.eraseStatement i j).compile filter hops =
      (t.compile filter hops).restrict fun key =>
        !(t.selects filter u f && decide (key = t.functionKey u.path f.name)) := by
  obtain ⟨front, own, back, hwith, hwithout, hkey⟩ := candidates_eraseStatement hu hf filter
  have hsub : ((t.eraseStatement i j).candidates filter).Sublist (t.candidates filter) := by
    rw [hwith, hwithout]
    exact (List.sublist_append_left front own).append_right back
  rw [compile_eq_restrict hops (environment_eraseStatement hu hf) hsub hn]
  refine restrict_congr fun key hmem => ?_
  rw [hwith, List.map_append, List.map_append] at hn hmem
  have hkeeps := mem_append_iff_of_nodup hn hmem
  rw [hkey] at hkeeps
  rw [hwithout, List.map_append, Bool.eq_iff_iff, decide_eq_true_iff, hkeeps]
  cases t.selects filter u f <;> simp

end

/-- A narrower filter selects some of the candidates, in their order. -/
theorem candidates_sublist {narrow filter : NameFilter}
    (h : ∀ kind name, narrow.allows kind name = true → filter.allows kind name = true)
    (t : ScanTarget) : (t.candidates narrow).Sublist (t.candidates filter) := by
  rw [candidates_eq_flatMap, candidates_eq_flatMap]
  refine List.Sublist.flatMap_right _ fun u _ => ?_
  have hunit : t.allowsUnit narrow u = true → t.allowsUnit filter u = true := by
    unfold allowsUnit
    split
    · exact id
    · simp only [List.all_eq_true]
      exact fun hall segment hs => h _ _ (hall segment hs)
  unfold unitCandidates
  cases hcontext : u.contextOnly || !t.allowsUnit narrow u with
  | true => exact List.nil_sublist _
  | false =>
    have hfalse : (u.contextOnly || !t.allowsUnit filter u) = false := by
      rw [Bool.or_eq_false_iff, Bool.not_eq_false'] at hcontext ⊢
      exact ⟨hcontext.1, hunit hcontext.2⟩
    rw [hfalse]
    exact (List.monotone_filter_right _ fun g hg => h .function g.name hg).map _

/-- Where no two candidates share a key, erasing a function definition takes away what the run finds
out about that function, if it is a candidate, and nothing else; and a narrower filter gives the
part of the result, in the same order, that is about the candidates it still allows. -/
theorem compile_edited (t : ScanTarget) (filter : NameFilter) (hops : Nat)
    (hn : ((t.candidates filter).map Candidate.key).Nodup) :
    (∀ i j u f, t.units[i]? = some u → u.tree.body[j]? = some (.functionDef f) →
      (t.eraseStatement i j).compile filter hops =
        (t.compile filter hops).restrict fun key =>
          !(t.selects filter u f && decide (key = t.functionKey u.path f.name))) ∧
      ∀ narrow : NameFilter,
        (∀ kind name, narrow.allows kind name = true → filter.allows kind name = true) →
        t.compile narrow hops = (t.compile filter hops).restrict (fun key =>
            decide (key ∈ (t.candidates narrow).map Candidate.key)) ∧
          (t.compile narrow hops).diagnostics.Sublist (t.compile filter hops).diagnostics ∧
          (t.compile narrow hops).schemas.Sublist (t.compile filter hops).schemas := by
  constructor
  · intro i j u f hu hf
    exact compile_eraseStatement hu hf filter hops hn
  · intro narrow hnarrow
    have hrestrict := compile_eq_restrict hops rfl (t.candidates_sublist hnarrow) hn
    refine ⟨hrestrict, ?_, ?_⟩
    · rw [hrestrict]
      exact List.filter_sublist
    · rw [hrestrict]
      exact List.filter_sublist

def serving : ScanTarget :=
  .ofPackage ⟨"pkg"⟩ [.ports, .service]

/-- All modules and the functions other than `check`. -/
def uncheckedFilter : NameFilter :=
  ⟨fun kind name => decide (kind = .module ∨ name ≠ "check")⟩

theorem compile_edited_serving :
    ((serving.candidates .allowAll).map Candidate.key).Nodup ∧
      (serving.compile .allowAll 16).schemas.keys = ["pkg.ports.check", "pkg.service.start"] ∧
      (serving.eraseStatement 1 1).compile .allowAll 16 =
        (serving.compile .allowAll 16).restrict (fun key => decide (key ≠ "pkg.service.start")) ∧
      (serving.compile uncheckedFilter 16).schemas.Sublist
        (serving.compile .allowAll 16).schemas := by
  have hn : ((serving.candidates .allowAll).map Candidate.key).Nodup := by decide +kernel
  obtain ⟨herase, hnarrow⟩ := compile_edited serving .allowAll 16 hn
  refine ⟨hn, by decide +kernel, ?_, (hnarrow uncheckedFilter fun _ _ _ => rfl).2.2⟩
  rw [herase 1 1 _ _ rfl rfl]
  rfl

end ScanTarget

end CallSchema
