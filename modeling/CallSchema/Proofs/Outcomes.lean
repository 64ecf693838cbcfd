import CallSchema.Proofs.Pointwise
import CallSchema.SyntaxTree.Build

/-! # The outcomes of a run

A run passes from candidate to candidate with one resolver, and what it finds out about each is an
outcome. A compilation is made of the outcomes alone; where no two candidates share a key, taking
candidates away takes their entries and reports away and leaves all others.
-/

namespace CallSchema

/-- What a run finds out about one function definition. -/
structure Outcome where
  key : String
  module : ModulePath
  position : Option Position
  result : Except Fault FunctionSchema

namespace Outcome

/-- The report on a function without schemas. -/
def diagnostic? (o : Outcome) : Option Diagnostic :=
  match o.result with
  | .ok _ => none
  | .error fault => some ⟨o.key, o.module, o.position, fault⟩

/-- The entry of a function with schemas. -/
def entry? (o : Outcome) : Option (String × FunctionSchema) :=
  match o.result with
  | .ok schema => some (o.key, schema)
  | .error _ => none

variable {o : Outcome}

theorem key_of_entry? {e : String × FunctionSchema} (h : o.entry? = some e) : e.1 = o.key := by
  unfold entry? at h
  split at h
  · cases h
    rfl
  · cases h

theorem of_diagnostic? {d : Diagnostic} (h : o.diagnostic? = some d) :
    d.function = o.key ∧ d.module = o.module := by
  unfold diagnostic? at h
  split at h
  · cases h
  · cases h
    exact ⟨rfl, rfl⟩

end Outcome

/-- The outcomes of candidates that are compiled one after the other with one resolver. -/
def Compilation.outcomes (env : Environment) (hops : Nat) : Resolver → List Candidate → List Outcome
  | _, [] => []
  | r, c :: rest =>
    let (result, r) := (c.compile env hops).run r
    ⟨c.key, c.module, c.position, result⟩ :: outcomes env hops r rest

/-- The outcomes of the run that compiles a target. -/
def ScanTarget.outcomes (t : ScanTarget) (filter : NameFilter) (hops : Nat) : List Outcome :=
  Compilation.outcomes t.environment hops .fresh (t.candidates filter)

/-- The outcome of a candidate with a resolver of its own. -/
def Candidate.freshOutcome (env : Environment) (hops : Nat) (c : Candidate) : Outcome :=
  ⟨c.key, c.module, c.position, c.outcome env hops⟩

namespace Compilation

theorem outcomes_of_valid {env : Environment} {hops : Nat} {r : Resolver}
    (hr : r.Valid env hops []) (cs : List Candidate) :
    outcomes env hops r cs = cs.map (Candidate.freshOutcome env hops) := by
  induction cs generalizing r with
  | nil => rfl
  | cons c cs ih =>
    obtain ⟨hresult, hafter⟩ := candidate_agrees c r hr
    rw [List.map_cons, ← ih hafter, Candidate.freshOutcome, ← hresult]
    rfl

/-- The schemas are entered and the faults listed in the order of the outcomes. -/
def ofOutcomes (os : List Outcome) : Compilation :=
  ⟨.ofList (os.filterMap Outcome.entry?), os.filterMap Outcome.diagnostic?⟩

/-- The part of a compilation that is about the functions with certain keys. -/
def restrict (c : Compilation) (keep : String → Bool) : Compilation :=
  ⟨c.schemas.filter fun e => keep e.1, c.diagnostics.filter fun d => keep d.function⟩

end Compilation

namespace ScanTarget

variable (t : ScanTarget) (filter : NameFilter) (hops : Nat)

theorem outcomes_eq : t.outcomes filter hops =
    (t.candidates filter).map (Candidate.freshOutcome t.environment hops) :=
  Compilation.outcomes_of_valid (Resolver.fresh_valid _ hops) _

theorem compile_eq_ofOutcomes :
    t.compile filter hops = .ofOutcomes (t.outcomes filter hops) := by
  rw [outcomes_eq, compile, Compilation.run_of_valid (Resolver.fresh_valid _ hops),
    Compilation.foldl_add, Compilation.ofOutcomes, List.filterMap_map, List.filterMap_map]
  rfl

theorem candidates_eq_flatMap :
    t.candidates filter = t.units.flatMap fun u => t.unitCandidates filter u u.extract := by
  unfold candidates extracts
  rw [List.flatMap_map]
  rfl

theorem keys_outcomes : (t.outcomes filter hops).map Outcome.key =
    (t.candidates filter).map Candidate.key := by
  rw [outcomes_eq, List.map_map]
  rfl

end ScanTarget

theorem Table.ofList_of_nodup {κ ν : Type} [DecidableEq κ] {pairs : List (κ × ν)}
    (h : (pairs.map Prod.fst).Nodup) : Table.ofList pairs = pairs := by
  induction pairs using List.reverseRecOn with
  | nil => rfl
  | append_singleton pairs p ih =>
    obtain ⟨key, value⟩ := p
    rw [List.map_append, List.nodup_append'] at h
    obtain ⟨hpairs, -, hdisjoint⟩ := h
    rw [Table.ofList_concat, ih hpairs, Table.enter_of_not_mem]
    exact fun hkey => hdisjoint hkey List.mem_cons_self

namespace ScanTarget

/-- Where no two candidates share a key, the entries are the outcomes with schemas, in order. -/
theorem schemas_eq {t : ScanTarget} {filter : NameFilter} (hops : Nat)
    (hn : ((t.candidates filter).map Candidate.key).Nodup) :
    (t.compile filter hops).schemas = (t.outcomes filter hops).filterMap Outcome.entry? := by
  rw [compile_eq_ofOutcomes]
  apply Table.ofList_of_nodup
  rw [← keys_outcomes t filter hops, List.Nodup, List.pairwise_map] at hn
  rw [List.Nodup, List.pairwise_map, List.pairwise_filterMap]
  refine hn.imp fun hne e he e' he' => ?_
  rwa [Outcome.key_of_entry? he, Outcome.key_of_entry? he']

/-- Fewer candidates in the same environment have the outcomes they had among the others. -/
theorem compile_eq_restrict {t t' : ScanTarget} {filter filter' : NameFilter} (hops : Nat)
    (henv : t'.environment = t.environment)
    (hsub : (t'.candidates filter').Sublist (t.candidates filter))
    (hn : ((t.candidates filter).map Candidate.key).Nodup) :
    t'.compile filter' hops = (t.compile filter hops).restrict fun key =>
      decide (key ∈ (t'.candidates filter').map Candidate.key) := by
  have hn' : ((t'.candidates filter').map Candidate.key).Nodup := (hsub.map _).nodup hn
  have houtcomes : (t'.outcomes filter' hops).Sublist (t.outcomes filter hops) := by
    rw [outcomes_eq, outcomes_eq, henv]
    exact hsub.map _
  have hfilter := sublist_eq_filter houtcomes ((keys_outcomes t filter hops).symm ▸ hn)
  rw [keys_outcomes] at hfilter
  have hschemas : (t'.compile filter' hops).schemas =
      (t.compile filter hops).schemas.filter fun e =>
        decide (e.1 ∈ (t'.candidates filter').map Candidate.key) := by
    rw [schemas_eq hops hn', schemas_eq hops hn, hfilter]
    exact (filter_filterMap_eq (fun o e he => by rw [Outcome.key_of_entry? he]) _).symm
  have hdiagnostics : (t'.compile filter' hops).diagnostics =
      (t.compile filter hops).diagnostics.filter fun d =>
        decide (d.function ∈ (t'.candidates filter').map Candidate.key) := by
    rw [compile_eq_ofOutcomes, compile_eq_ofOutcomes, Compilation.ofOutcomes,
      Compilation.ofOutcomes, hfilter]
    exact (filter_filterMap_eq (fun o d hd => by rw [(Outcome.of_diagnostic? hd).1]) _).symm
  rw [Compilation.restrict, ← hschemas, ← hdiagnostics]

theorem restrict_congr {t : ScanTarget} {filter : NameFilter} {hops : Nat}
    {keep keep' : String → Bool}
    (h : ∀ key ∈ (t.candidates filter).map Candidate.key, keep key = keep' key) :
    (t.compile filter hops).restrict keep = (t.compile filter hops).restrict keep' := by
  rw [← keys_outcomes t filter hops] at h
  rw [compile_eq_ofOutcomes, Compilation.restrict, Compilation.restrict]
  congr 1
  · refine List.filter_congr fun e he => ?_
    obtain ⟨o, ho, hentry⟩ := List.mem_filterMap.mp (Table.mem_of_mem_ofList he)
    rw [Outcome.key_of_entry? hentry]
    exact h _ (List.mem_map_of_mem ho)
  · refine List.filter_congr fun d hd => ?_
    obtain ⟨o, ho, hdiagnostic⟩ := List.mem_filterMap.mp hd
    rw [(Outcome.of_diagnostic? hdiagnostic).1]
    exact h _ (List.mem_map_of_mem ho)

end ScanTarget

namespace SourceUnit

/-- A module with a type and a function. -/
def ports : SourceUnit :=
  ⟨⟨"pkg.ports"⟩, false,
    ⟨[.assignName "Port" (.name "int"),
      .function "check" (.ofPositional [.typed "port" (.name "Port")]) (some (.name "bool"))]⟩,
    false⟩

/-- A module with two functions. One takes its type from `pkg.ports`, the other has a parameter
without a type. -/
def service : SourceUnit :=
  ⟨⟨"pkg.service"⟩, false,
    ⟨[.importFrom (some "ports") 1 [.plain "Port"],
      .function "start" (.ofPositional [.typed "port" (.name "Port")]) none,
      .function "stop" (.ofPositional [.untyped "reason"]) none]⟩,
    false⟩

end SourceUnit

end CallSchema
