import CallSchema.Proofs.ModuleIdentity
import CallSchema.Proofs.Pointwise

/-! # Filtering the modules of a package

Modules are filtered by the parts of their paths below that of the package, which spell the names of
directories and documents below the directory of the package. So a module is compiled if these names
pass, and the name of the package itself is never judged, whatever dots it has.
-/

namespace CallSchema

open FileTree

/-- The names on the way to a document pass the filter, and so does its own name unless it is the
document of a package. -/
structure Document.Passes (filter : NameFilter) (d : Document) : Prop where
  directories : ∀ name ∈ d.below, filter.allows .module name = true
  document : d.name ≠ packageDocument → filter.allows .module (stem d.name) = true

theorem Document.passes_iff {filter : NameFilter} {d : Document} :
    d.Passes filter ↔ ∀ name ∈ d.segments, filter.allows .module name = true := by
  unfold segments
  split
  · rename_i hname
    exact ⟨fun h => h.directories, fun h => ⟨h, fun hne => absurd hname hne⟩⟩
  · rename_i hname
    constructor
    · intro h name hmem
      rcases List.mem_append.mp hmem with hmem | hmem
      · exact h.directories name hmem
      · rw [List.mem_singleton.mp hmem]
        exact h.document hname
    · intro h
      exact ⟨fun name hmem => h name (List.mem_append_left _ hmem), fun _ => h _ (by simp)⟩

instance (filter : NameFilter) (d : Document) : Decidable (d.Passes filter) :=
  decidable_of_iff _ Document.passes_iff.symm

/-- The functions of a unit that pass the filter by their own names. -/
def SourceUnit.functions (u : SourceUnit) (filter : NameFilter) : List Selected :=
  (u.tree.functions.filter fun site => filter.allows .function site.definition.name).map
    fun site => ⟨u, site⟩

/-- The functions of the units whose documents pass the filter. -/
def passingFunctions (filter : NameFilter) (docs : List Document) (units : List SourceUnit) :
    List Selected :=
  ((docs.zip units).filter fun p => p.1.Passes filter).flatMap fun p => p.2.functions filter

/-- Allows a single name. -/
def NameFilter.only (allowed : String) : NameFilter :=
  ⟨fun _ name => name == allowed⟩

theorem Document.contextOnly_of_load {d : Document} {dir real : String} {package : ModulePath}
    {u : SourceUnit} (h : d.load dir real package = .ok u) : u.contextOnly = false := by
  obtain ⟨-, -, h⟩ := bind_eq_ok.mp h
  obtain ⟨tree, -, rfl⟩ := map_eq_ok.mp h
  rfl

namespace ScanTarget

variable {t : ScanTarget} {filter : NameFilter} {docs : List Document} {units : List SourceUnit}

/-- What is left of the path of a module after that of its package are the names on the way. -/
theorem allowsUnit_iff_passes {root : ModulePath} {u : SourceUnit} {d : Document}
    (hpath : u.path = d.module root) (h : ∀ name ∈ d.segments, name ≠ "" ∧ '.' ∉ name.toList) :
    (ofPackage root units).allowsUnit filter u = true ↔ d.Passes filter := by
  have hdrop : u.path.segments.drop root.segments.length = d.segments := by
    rw [hpath, Document.module, ModulePath.segments_foldl_join root h, List.drop_left]
  have hallows : (ofPackage root units).allowsUnit filter u =
      (u.path.segments.drop root.segments.length).all (filter.allows .module) := rfl
  rw [hallows, hdrop, List.all_eq_true, Document.passes_iff]

theorem selected_eq_passingFunctions (hlen : docs.length = t.units.length)
    (h : ∀ p ∈ docs.zip t.units, p.2.contextOnly = false ∧
      (t.allowsUnit filter p.2 = true ↔ p.1.Passes filter)) :
    t.selected filter = passingFunctions filter docs t.units := by
  have hsnd : (docs.zip t.units).map Prod.snd = t.units :=
    List.map_snd_zip (Nat.le_of_eq hlen.symm)
  have hunits : t.units.filter (fun u => !u.contextOnly && t.allowsUnit filter u) =
      ((docs.zip t.units).filter fun p => p.1.Passes filter).map Prod.snd := by
    nth_rewrite 1 [← hsnd]
    rw [List.filter_map]
    congr 1
    refine List.filter_congr fun p hp => ?_
    obtain ⟨hcontext, hpasses⟩ := h p hp
    rw [Bool.eq_iff_iff, decide_eq_true_iff, ← hpasses]
    simp [hcontext]
  rw [selected, hunits, List.flatMap_map]
  rfl

end ScanTarget

namespace FileTree

/-- Compilation of a package takes the functions of exactly those modules whose names below the
package pass the filter. The document of the package itself always does. -/
theorem loadPackage_filters (t : FileTree) (path : String) (names : List String) (node : FileNode)
    (target : ScanTarget) (filter : NameFilter) (hops : Nat) (hwf : t.root.WellFormed)
    (hcanonical : t.canonical? path = some names) (hnode : t.node? names = some node)
    (hdotless : ∀ d, node.Contains path d → ∀ name ∈ d.segments, '.' ∉ name.toList)
    (hload : t.loadPackage path = .ok target) :
    target.root = ⟨lastName names⟩ ∧ ∃ docs : List Document,
      (∀ d, d ∈ docs ↔ node.Contains path d) ∧
      List.Forall₂ (fun d u => d.load path (absolutePath names) target.root = .ok u)
        docs target.units ∧
      (∀ p ∈ docs.zip target.units, p.2.contextOnly = false ∧
        (target.allowsUnit filter p.2 = true ↔ p.1.Passes filter)) ∧
      (target.compile filter hops).diagnostics =
        (passingFunctions filter docs target.units).filterMap (Selected.diagnostic? target hops) ∧
      (target.compile filter hops).schemas =
        .ofList ((passingFunctions filter docs target.units).filterMap
          (Selected.entry? target hops)) ∧
      ∃ p ∈ docs.zip target.units, p.1.below = [] ∧ p.1.name = packageDocument ∧
        p.2.path = target.root ∧ p.1.Passes filter := by
  obtain ⟨hpackage, -, units, rfl, hunits⟩ := loadPackage_eq_ok hcanonical hnode hload
  have hwf_node := (hwf.along hnode).2
  have hcontains : ∀ d, d ∈ node.contents path ↔ node.Contains path d :=
    fun d => FileNode.mem_contents_iff hwf_node
  have hpasses : ∀ p ∈ (node.contents path).zip units, p.2.contextOnly = false ∧
      ((ScanTarget.ofPackage ⟨lastName names⟩ units).allowsUnit filter p.2 = true ↔
        p.1.Passes filter) := by
    rintro ⟨d, u⟩ hp
    have hloaded := List.forall₂_zip hunits hp
    have hd := (hcontains d).mp (List.of_mem_zip hp).1
    refine ⟨Document.contextOnly_of_load hloaded, ?_⟩
    refine ScanTarget.allowsUnit_iff_passes (Document.path_of_load hloaded) fun name hname => ?_
    exact ⟨hd.segment_ne_empty hwf_node name hname, hdotless d hd name hname⟩
  have hcompile := (ScanTarget.ofPackage ⟨lastName names⟩ units).compile_eq filter hops
  rw [ScanTarget.selected_eq_passingFunctions hunits.length_eq hpasses] at hcompile
  refine ⟨rfl, node.contents path, hcontains, hunits, hpasses, ?_, ?_, ?_⟩
  · rw [hcompile]
  · rw [hcompile]
  · obtain ⟨content, hholds⟩ := FileNode.isPackageAt_iff_holdsAt.mp hpackage
    have hext : hasExtension "json" packageDocument = true := rfl
    have hroot : node.Contains path ⟨[], packageDocument, content⟩ :=
      ⟨fun front hfront hne => absurd (List.prefix_nil.mp hfront) hne, hext, hholds⟩
    obtain ⟨u, hu⟩ := exists_mem_zip hunits.length_eq ((hcontains _).mpr hroot)
    refine ⟨(_, u), hu, rfl, rfl, Document.path_of_load (List.forall₂_zip hunits hu), ?_⟩
    exact ⟨fun name hmem => absurd hmem List.not_mem_nil, fun hne => absurd rfl hne⟩

/-- A package with two documents. -/
def typesPackage : FileNode :=
  .directory [("__init__.json", emptyDocument), ("types.json", emptyDocument)]

/-- The package under a name with a dot. -/
def versionedPackage : FileTree where
  root := .directory [("v1.2", typesPackage)]
  here := []

theorem wellFormed_typesPackage : typesPackage.WellFormed := by
  have hdocument : emptyDocument.WellFormed := .stored _
  exact .directory (by decide) (by decide) (by simpa using hdocument)

theorem steps_typesPackage : typesPackage.steps "v1.2" =
    [.load ⟨[], "__init__.json", .ok "[]".toUTF8⟩, .list [] none,
      .load ⟨[], "types.json", .ok "[]".toUTF8⟩] := by
  have hdocuments : documents "v1.2" typesPackage.entries =
    [("__init__.json", .ok "[]".toUTF8), ("types.json", .ok "[]".toUTF8)] := rfl
  have hsub : FileNode.subPackages "v1.2" typesPackage.entries = [] := rfl
  have hinit : isPackageStem "__init__.json" = true := rfl
  have htypes : isPackageStem "types.json" = false := rfl
  have htypesPackage : typesPackage = .directory typesPackage.entries := rfl
  rw [htypesPackage, FileNode.steps_directory, hdocuments, FileNode.stepsBelow, hsub]
  simp [FileNode.loads, sortByName, hinit, htypes]

/-- A filter that allows no part of the name of the package, nor its other module, leaves it the
functions of its own document. -/
theorem loadPackage_filters_versioned :
    versionedPackage.root.WellFormed ∧ versionedPackage.canonical? "v1.2" = some ["v1.2"] ∧
      ∃ target, versionedPackage.loadPackage "v1.2" = .ok target ∧ target.root = ⟨"v1.2"⟩ ∧
        ∃ docs : List Document,
          (∀ p ∈ docs.zip target.units, p.2.contextOnly = false ∧
            (target.allowsUnit (.only "start") p.2 = true ↔ p.1.Passes (.only "start"))) ∧
          ∃ p ∈ docs.zip target.units, p.1.below = [] ∧ p.1.name = packageDocument ∧
            p.2.path = target.root ∧ p.1.Passes (.only "start") := by
  have hwf : versionedPackage.root.WellFormed :=
    .directory (by decide) (by decide) (by simpa using wellFormed_typesPackage)
  have hcanonical : versionedPackage.canonical? "v1.2" = some ["v1.2"] := by decide
  have hnode : versionedPackage.node? ["v1.2"] = some typesPackage := rfl
  have hdotless : ∀ d, typesPackage.Contains "v1.2" d → ∀ name ∈ d.segments, '.' ∉ name.toList := by
    intro d hd
    rw [← FileNode.mem_contents_iff wellFormed_typesPackage, FileNode.contents,
      steps_typesPackage] at hd
    revert d
    decide
  have hload : ∃ target, versionedPackage.loadPackage "v1.2" = .ok target := by
    rw [loadPackage_of_isPackageAt hcanonical hnode rfl, checkNamed_of_isNamed (by decide),
      steps_typesPackage]
    exact ⟨_, rfl⟩
  obtain ⟨target, htarget⟩ := hload
  obtain ⟨hroot, docs, -, -, hpasses, -, -, hinit⟩ := loadPackage_filters versionedPackage "v1.2"
    ["v1.2"] typesPackage target (.only "start") 16 hwf hcanonical hnode hdotless htarget
  exact ⟨hwf, hcanonical, target, htarget, hroot, docs, hpasses, hinit⟩

end FileTree

end CallSchema
