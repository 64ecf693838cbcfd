import CallSchema.Proofs.ModulePaths
import CallSchema.Proofs.PackageContext
import CallSchema.Proofs.ScanOrder

/-! # Modules and their paths

A module path spells the names it is joined from, and gives them back as long as they have no dots.
So the modules of a package have different paths unless one of its names has a dot or a document
stands beside a sub-package of its name. Modules with different paths keep their definitions and
imports apart.
-/

namespace CallSchema

open FileTree

namespace ModulePath

theorem segments_foldl_join (p : ModulePath) {names : List String}
    (h : ∀ name ∈ names, name ≠ "" ∧ '.' ∉ name.toList) :
    (names.foldl join p).segments = p.segments ++ names := by
  induction names generalizing p with
  | nil => simp
  | cons name names ih =>
    obtain ⟨hne, hdot⟩ := h name List.mem_cons_self
    rw [List.foldl_cons, ih _ fun n hn => h n (List.mem_cons_of_mem name hn),
      segments_join, segments_of_isSegment ⟨hne, hdot⟩, List.append_assoc, List.singleton_append]

end ModulePath

theorem FileTree.stem_ne_empty {name : String} (h : name ≠ "") : stem name ≠ "" := by
  unfold stem
  split
  · split
    · exact h
    · rename_i hfront
      exact fun he => hfront (String.isEmpty_iff.mpr he)
  · exact h

namespace FileNode

/-- The names in a package tell its modules apart: they have no dots, and no document stands beside
a sub-package of its name. -/
structure TellsApart (dir : String) (node : FileNode) : Prop where
  dotless : ∀ d, node.Contains dir d → ∀ name ∈ d.segments, '.' ∉ name.toList
  apart : ∀ d e, node.Contains dir d → node.Contains dir e → d.name ≠ packageDocument →
    e.below ≠ d.below ++ [stem d.name]

variable {dir : String} {node : FileNode} {d e : Document} {package : ModulePath}

theorem Contains.segment_ne_empty (hwf : node.WellFormed) (h : node.Contains dir d) :
    ∀ name ∈ d.segments, name ≠ "" := by
  have hnames := (hwf.along h.holds.file).1
  have hbelow : ∀ name ∈ d.below, name ≠ "" := fun name hname =>
    (hnames name (List.mem_append_left _ hname)).ne_empty
  have hname : d.name ≠ "" := (hnames d.name (by simp)).ne_empty
  unfold Document.segments
  split
  · exact hbelow
  · simpa [or_imp, forall_and] using ⟨hbelow, stem_ne_empty hname⟩

/-- Documents of one module are one document. -/
theorem TellsApart.eq_of_segments_eq (h : node.TellsApart dir) (hd : node.Contains dir d)
    (he : node.Contains dir e) (hsegments : d.segments = e.segments) :
    d.below = e.below ∧ d.name = e.name := by
  unfold Document.segments at hsegments
  split at hsegments <;> split at hsegments
  · rename_i hdname hename
    exact ⟨hsegments, hdname.trans hename.symm⟩
  · rename_i hename
    exact absurd hsegments (h.apart e d he hd hename)
  · rename_i hdname _
    exact absurd hsegments.symm (h.apart d e hd he hdname)
  · obtain ⟨hbelow, hstem⟩ := List.append_inj' hsegments rfl
    exact ⟨hbelow, eq_of_stem_eq hd.extension he.extension (List.singleton_injective hstem)⟩

theorem TellsApart.nodup_modules (h : node.TellsApart dir) (hwf : node.WellFormed)
    (package : ModulePath) : ((contents dir node).map (Document.module package)).Nodup := by
  refine List.pairwise_map.mpr ((pairwise_contents hwf).imp_of_mem fun hd he hlt hmodule => ?_)
  rename_i d e
  have hd := (mem_contents_iff hwf).mp hd
  have he := (mem_contents_iff hwf).mp he
  have hnames {d : Document} (hd : node.Contains dir d) (name : String)
      (hname : name ∈ d.segments) : name ≠ "" ∧ '.' ∉ name.toList :=
    ⟨hd.segment_ne_empty hwf name hname, h.dotless d hd name hname⟩
  have hsegments := congrArg ModulePath.segments hmodule
  rw [Document.module, ModulePath.segments_foldl_join _ (hnames hd), Document.module,
    ModulePath.segments_foldl_join _ (hnames he)] at hsegments
  obtain ⟨hbelow, hname⟩ := h.eq_of_segments_eq hd he (List.append_cancel_left hsegments)
  exact hlt.name_ne hbelow hname

theorem tellsApart_of_contents (hwf : node.WellFormed)
    (hdotless : ∀ d ∈ contents dir node, ∀ name ∈ d.segments, '.' ∉ name.toList)
    (hapart : ∀ d ∈ contents dir node, ∀ e ∈ contents dir node, d.name ≠ packageDocument →
      e.below ≠ d.below ++ [stem d.name]) : node.TellsApart dir :=
  ⟨fun d hd => hdotless d ((mem_contents_iff hwf).mpr hd), fun d e hd he =>
    hapart d ((mem_contents_iff hwf).mpr hd) e ((mem_contents_iff hwf).mpr he)⟩

end FileNode

theorem Document.path_of_load {d : Document} {dir real : String} {package : ModulePath}
    {u : SourceUnit} (h : d.load dir real package = .ok u) : u.path = d.module package := by
  obtain ⟨-, -, h⟩ := bind_eq_ok.mp h
  obtain ⟨tree, -, rfl⟩ := map_eq_ok.mp h
  rfl

theorem Document.paths_of_load {docs : List Document} {dir real : String} {package : ModulePath}
    {units : List SourceUnit}
    (h : List.Forall₂ (fun d u => d.load dir real package = .ok u) docs units) :
    units.map SourceUnit.path = docs.map (Document.module package) := by
  induction h with
  | nil => rfl
  | cons hload _ ih => rw [List.map_cons, List.map_cons, path_of_load hload, ih]

namespace SourceFile

theorem path_of_load? {f : SourceFile} {u : SourceUnit} (h : f.load? = some u) :
    u.path = f.module := by
  obtain ⟨tree, -, rfl⟩ := map_eq_ok.mp (load?_eq_some_iff.mp h)
  rfl

theorem module_ofName_root (dir name : String) (content : FileContent) :
    (ofName dir .root name content).module =
      if isPackageStem name then .root else ⟨stem name⟩ := by
  unfold ofName
  split <;> rfl

/-- What is left out only takes modules away. -/
theorem paths_sublist (files : List SourceFile) :
    ((files.filterMap load?).map SourceUnit.path).Sublist (files.map SourceFile.module) := by
  induction files with
  | nil => exact .slnil
  | cons f files ih =>
    rw [List.filterMap_cons]
    split
    · exact ih.cons _
    · rename_i u hload
      rw [List.map_cons, path_of_load? hload]
      exact ih.cons_cons _

end SourceFile

namespace FileTree

variable {t : FileTree} {path : String} {target : ScanTarget}

/-- The names around a path tell the modules apart that are scanned for it. For a directory these
are the names below it, and for a document in a package those below the top-most package around it.
Outside of packages, a file that is no document must not stand beside a document of its stem, and a
document has to be recognised among those in its directory. -/
inductive TellsApart (t : FileTree) (path : String) : Prop
  | package {names : List String} {es : List (String × FileNode)} {refusal : Option AccessFault} :
      t.canonical? path = some names → t.node? names = some (.directory es refusal) →
      (FileNode.directory es refusal).TellsApart path → TellsApart t path
  | around {dir top below : List String} {name : String} {content : FileContent}
      {node : FileNode} :
      t.canonical? path = some (dir ++ [name]) → t.node? (dir ++ [name]) = some (.stored content) →
      t.isPackageAt (parentPath path) dir = true → t.topPackage dir.reverse [] = (top, below) →
      t.node? top = some node → node.TellsApart (absolutePath top) → TellsApart t path
  | beside {dir : List String} {name : String} {content : FileContent} {node : FileNode} :
      t.canonical? path = some (dir ++ [name]) → t.node? (dir ++ [name]) = some (.stored content) →
      t.isPackageAt (parentPath path) dir = false → t.node? dir = some node →
      (∀ other, node.HoldsAt (parentPath path) [] (stem name ++ ".json") other →
        hasExtension "json" name = true) →
      (hasExtension "json" name = true →
        t.sameFile (joinPath (parentPath path) name) path = true) → TellsApart t path

theorem nodup_packageContext {top : List String} {node : FileNode} {context : List SourceUnit}
    (hwf : t.root.WellFormed) (hnode : t.node? top = some node)
    (happart : node.TellsApart (absolutePath top)) (h : t.packageContext top = .ok context) :
    (context.map SourceUnit.path).Nodup := by
  have hmodules : ((node.contents (absolutePath top)).map
        (Document.source (absolutePath top) ⟨lastName top⟩)).map SourceFile.module =
      (node.contents (absolutePath top)).map (Document.module ⟨lastName top⟩) := by
    rw [List.map_map]
    refine List.map_congr_left fun d hd => ?_
    have hext := ((FileNode.mem_contents_iff (hwf.along hnode).2).mp hd).extension
    exact congrArg (fun unit => (unit ⟨[]⟩).path) (Document.unit_source hext)
  obtain ⟨files, hcontext, hfiles⟩ :=
    packageContext_of_listed hnode (listed_of_packageContext hnode h)
  cases hcontext.symm.trans h
  refine List.Nodup.sublist (SourceFile.paths_sublist files) ?_
  rw [(hfiles.map SourceFile.module).nodup_iff, hmodules]
  exact happart.nodup_modules (hwf.along hnode).2 _

theorem nodup_ofModule {unit : SourceUnit} {context : List SourceUnit}
    (h : (context.map SourceUnit.path).Nodup) (hunit : ∀ u ∈ context, u.path ≠ unit.path) :
    ((ScanTarget.ofModule unit context).units.map SourceUnit.path).Nodup := by
  have hpaths : (ScanTarget.ofModule unit context).units.map SourceUnit.path =
      unit.path :: context.map SourceUnit.path := by
    simp [ScanTarget.ofModule]
  rw [hpaths, List.nodup_cons]
  refine ⟨fun hmem => ?_, h⟩
  obtain ⟨u, hu, hpath⟩ := List.mem_map.mp hmem
  exact hunit u hu hpath

theorem mem_siblingDocuments {dir other : String} {es : List (String × FileNode)}
    {refusal : Option AccessFault} {content : FileContent} (hnodup : (Table.keys es).Nodup) :
    (other, content) ∈ t.siblingDocuments dir path es ↔
      t.sameFile (joinPath dir other) path = false ∧ hasExtension "json" other = true ∧
        FileNode.HoldsAt dir (.directory es refusal) [] other content := by
  have hfind : Table.find? es other = some (.stored content) ↔ (other, .stored content) ∈ es :=
    ⟨Table.mem_of_find?, Table.find?_of_mem hnodup⟩
  rw [siblingDocuments, List.mem_filter, (sortByName_perm _).mem_iff, FileNode.mem_documents,
    FileNode.holdsAt_nil, FileNode.entries, hfind, Bool.not_eq_true']
  tauto

theorem nodup_siblingDocuments {dir : String} {es : List (String × FileNode)}
    (hnodup : (Table.keys es).Nodup) :
    ((t.siblingDocuments dir path es).map fun d => stem d.1).Nodup := by
  have hnames : ((t.siblingDocuments dir path es).map Prod.fst).Nodup := by
    refine List.Nodup.sublist (List.filter_sublist.map Prod.fst) ?_
    rw [((sortByName_perm _).map Prod.fst).nodup_iff]
    exact hnodup.sublist FileNode.documents_sublist
  have hext {d : String × FileContent} (hd : d ∈ t.siblingDocuments dir path es) :
      hasExtension "json" d.1 = true :=
    (FileNode.mem_documents.mp ((sortByName_perm _).mem_iff.mp (List.mem_of_mem_filter hd))).2.1
  refine List.pairwise_map.mpr ((List.pairwise_map.mp hnames).imp_of_mem fun hd he hne hstem => ?_)
  exact hne (FileNode.eq_of_stem_eq (hext hd) (hext he) hstem)

/-- Outside of packages, the modules beside a file have the stems of their documents as paths. -/
theorem paths_siblingContext {dir : String} {es : List (String × FileNode)}
    {refusal : Option AccessFault} (hnodup : (Table.keys es).Nodup)
    (hpackage : FileNode.isPackageAt dir (.directory es refusal) = false) :
    ((((t.siblingDocuments dir path es).map fun d =>
        SourceFile.ofName dir .root d.1 d.2).filterMap SourceFile.load?).map
          SourceUnit.path).Sublist
      ((t.siblingDocuments dir path es).map fun d => ⟨stem d.1⟩) := by
  have hmodules : (t.siblingDocuments dir path es).map (fun d => (⟨stem d.1⟩ : ModulePath)) =
      ((t.siblingDocuments dir path es).map fun d => SourceFile.ofName dir .root d.1 d.2).map
        SourceFile.module := by
    rw [List.map_map]
    refine List.map_congr_left fun d hd => ?_
    obtain ⟨-, hext, hholds⟩ := (@mem_siblingDocuments t path dir d.1 es refusal d.2 hnodup).mp hd
    have hstem : ¬ isPackageStem d.1 = true := fun h => by
      rw [(FileNode.isPackageStem_iff hext).mp h] at hholds
      have hat := FileNode.isPackageAt_iff_holdsAt.mpr ⟨d.2, hholds⟩
      rw [hpackage] at hat
      cases hat
    exact (if_neg hstem).symm.trans (SourceFile.module_ofName_root dir d.1 d.2).symm
  rw [hmodules]
  exact SourceFile.paths_sublist _

theorem nodup_loadPackage {names : List String} {node : FileNode} (hwf : t.root.WellFormed)
    (hcanonical : t.canonical? path = some names) (hnode : t.node? names = some node)
    (happart : node.TellsApart path) (h : t.loadPackage path = .ok target) :
    (target.units.map SourceUnit.path).Nodup := by
  obtain ⟨-, -, units, rfl, hunits⟩ := loadPackage_eq_ok hcanonical hnode h
  have hpaths : units.map SourceUnit.path =
      (node.contents path).map (Document.module ⟨lastName names⟩) := Document.paths_of_load hunits
  have hmodules := happart.nodup_modules (hwf.along hnode).2 ⟨lastName names⟩
  rwa [← hpaths] at hmodules

theorem nodup_around {dir top below : List String} {name : String} {tree : SyntaxTree}
    {node : FileNode} (hwf : t.root.WellFormed)
    (hpackage : t.isPackageAt (parentPath path) dir = true)
    (htop : t.topPackage dir.reverse [] = (top, below)) (hnode : t.node? top = some node)
    (happart : node.TellsApart (absolutePath top))
    (h : t.moduleTarget path (dir ++ [name]) tree = .ok target) :
    (target.units.map SourceUnit.path).Nodup := by
  rw [moduleTarget, List.dropLast_concat, if_pos hpackage, htop] at h
  obtain ⟨-, -, h⟩ := bind_eq_ok.mp h
  obtain ⟨-, -, h⟩ := bind_eq_ok.mp h
  obtain ⟨context, hcontext, htarget⟩ := bind_eq_ok.mp h
  cases htarget
  refine nodup_ofModule ?_ fun u hu => of_decide_eq_true (List.mem_filter.mp hu).2
  exact (nodup_packageContext hwf hnode happart hcontext).sublist (List.filter_sublist.map _)

/-- A module beside a file is of another document, and has another stem. -/
theorem path_ne_of_beside {dir name : String} {es : List (String × FileNode)}
    {refusal : Option AccessFault} (hwf : (FileNode.directory es refusal).WellFormed)
    (hbeside : ∀ other, FileNode.HoldsAt dir (.directory es refusal) []
      (stem name ++ ".json") other → hasExtension "json" name = true)
    (hsame : hasExtension "json" name = true → t.sameFile (joinPath dir name) path = true)
    {d : String × FileContent} (hd : d ∈ t.siblingDocuments dir path es) :
    (⟨stem d.1⟩ : ModulePath) ≠ if isPackageStem name then .root else ⟨stem name⟩ := by
  obtain ⟨hother, hext, hholds⟩ :=
    (@mem_siblingDocuments t path dir d.1 es refusal d.2 hwf.nodup_entries).mp hd
  intro hmodule
  split at hmodule
  · -- Only the document of a package has the path of the root.
    have hname : d.1 ≠ "" := ((hwf.along hholds.file).1 d.1 List.mem_cons_self).ne_empty
    exact stem_ne_empty hname (ModulePath.mk.inj hmodule)
  · have hstem : stem d.1 = stem name := ModulePath.mk.inj hmodule
    rw [beq_iff_eq.mp hext, hstem, String.append_assoc] at hholds
    have hdocument := hbeside _ hholds
    rw [FileNode.eq_of_stem_eq hext hdocument hstem, hsame hdocument] at hother
    cases hother

theorem nodup_beside {dir : List String} {name : String} {tree : SyntaxTree}
    {es : List (String × FileNode)} {refusal : Option AccessFault}
    (hwf : (FileNode.directory es refusal).WellFormed)
    (hpackage : t.isPackageAt (parentPath path) dir = false)
    (hnode : t.node? dir = some (.directory es refusal))
    (hbeside : ∀ other, FileNode.HoldsAt (parentPath path) (.directory es refusal) []
      (stem name ++ ".json") other → hasExtension "json" name = true)
    (hsame : hasExtension "json" name = true →
      t.sameFile (joinPath (parentPath path) name) path = true)
    (h : t.moduleTarget path (dir ++ [name]) tree = .ok target) :
    (target.units.map SourceUnit.path).Nodup := by
  have hname : lastName (dir ++ [name]) = name := by simp [lastName]
  rw [moduleTarget, List.dropLast_concat, hname, hpackage] at h
  obtain ⟨context, hcontext, htarget⟩ := bind_eq_ok.mp h
  cases htarget
  cases refusal with
  | some fault =>
    rw [siblingContext, hnode] at hcontext
    cases hcontext
  | none =>
    rw [siblingContext_of_listed hnode] at hcontext
    cases hcontext
    have hat : FileNode.isPackageAt (parentPath path) (.directory es) = false :=
      (isPackageAt_eq hnode).symm.trans hpackage
    have hpaths := @paths_siblingContext t path _ es none hwf.nodup_entries hat
    have hstems := List.pairwise_map.mp
      (@nodup_siblingDocuments t path (parentPath path) es hwf.nodup_entries)
    have hnodup := hpaths.nodup
      (List.pairwise_map.mpr (hstems.imp fun hne heq => hne (ModulePath.mk.inj heq)))
    apply nodup_ofModule hnodup
    intro u hu hpath
    obtain ⟨d, hd, hstem⟩ := List.mem_map.mp (hpaths.subset (List.mem_map_of_mem hu))
    have hne := path_ne_of_beside hwf hbeside hsame hd
    rw [hstem, hpath] at hne
    exact hne (SourceFile.module_ofName_root _ name (.ok .empty))

theorem exists_moduleTarget {names : List String} {content : FileContent}
    (hcanonical : t.canonical? path = some names) (hnode : t.node? names = some (.stored content))
    (h : t.discover path = .ok target) : ∃ tree, t.moduleTarget path names tree = .ok target := by
  rw [discover_of_stored hcanonical hnode] at h
  obtain ⟨tree, -, htarget⟩ := bind_eq_ok.mp h
  exact ⟨tree, htarget⟩

/-- Where the names tell modules apart, the modules that are scanned have different paths, and each
has the definitions and imports of its own document. -/
theorem discover_identifies (t : FileTree) (path : String) (target : ScanTarget)
    (hwf : t.root.WellFormed) (happart : t.TellsApart path)
    (hdiscover : t.discover path = .ok target) :
    (target.units.map SourceUnit.path).Nodup ∧
      ∀ u ∈ target.units,
        Environment.AgreeOn {u.path} target.environment (Environment.empty.addUnit u) := by
  have hnodup : (target.units.map SourceUnit.path).Nodup := by
    cases happart with
    | package hcanonical hnode happart =>
      rw [discover_of_directory hcanonical hnode] at hdiscover
      exact nodup_loadPackage hwf hcanonical hnode happart hdiscover
    | around hcanonical hfile hpackage htop hnode happart =>
      obtain ⟨tree, htarget⟩ := exists_moduleTarget hcanonical hfile hdiscover
      exact nodup_around hwf hpackage htop hnode happart htarget
    | beside hcanonical hfile hpackage hnode hbeside hsame =>
      obtain ⟨tree, htarget⟩ := exists_moduleTarget hcanonical hfile hdiscover
      obtain ⟨es, refusal, -, hes, -, -⟩ := node?_cons_some hfile
      cases hnode.symm.trans hes
      exact nodup_beside (hwf.along hnode).2 hpackage hnode hbeside hsame htarget
  refine ⟨hnodup, fun u hu => ?_⟩
  rw [ScanTarget.environment_eq]
  exact Environment.addUnits_agreeOn_of_mem hnodup hu .empty

/-- A package with a document beside the sub-package `config`. -/
def configPackage (document : String) : List (String × FileNode) :=
  [("__init__.json", emptyDocument), (document, emptyDocument),
    ("config", .directory [("__init__.json", emptyDocument)])]

def besideConfig (document : String) : FileTree where
  root := .directory [("pkg", .directory (configPackage document))]
  here := []

theorem steps_configPackage {document : String}
    (hdocuments : documents "pkg" (configPackage document) =
      [("__init__.json", .ok "[]".toUTF8), (document, .ok "[]".toUTF8)])
    (hstem : isPackageStem document = false) :
    (FileNode.directory (configPackage document)).steps "pkg" =
      [.load ⟨[], "__init__.json", .ok "[]".toUTF8⟩, .list [] none,
        .load ⟨[], document, .ok "[]".toUTF8⟩,
        .load ⟨["config"], "__init__.json", .ok "[]".toUTF8⟩, .list ["config"] none] := by
  have hinit : isPackageStem "__init__.json" = true := rfl
  have hpath : joinPath "pkg" "config" = "pkg/config" := rfl
  have hsub : FileNode.subPackages "pkg" (configPackage document) =
      [("config", .directory [("__init__.json", emptyDocument)])] := by
    have hfile (path : String) : emptyDocument.isPackageAt path = false := Bool.and_false _
    have hconfig : FileNode.isPackageAt "pkg/config"
      (.directory [("__init__.json", emptyDocument)]) = true := rfl
    simp [FileNode.subPackages, configPackage, hfile, hpath, hconfig]
  have hinner : documents "pkg/config" [("__init__.json", emptyDocument)] =
    [("__init__.json", .ok "[]".toUTF8)] := rfl
  have hnone : FileNode.subPackages "pkg/config" [("__init__.json", emptyDocument)] = [] := rfl
  rw [FileNode.steps_directory, hdocuments, FileNode.stepsBelow, hsub]
  simp [FileNode.loads, sortByName, hinit, hstem, FileNode.steps_directory, FileNode.stepsBelow,
    hinner, hnone, hpath, Step.under, Document.under]

theorem discover_besideConfig (document : String) :
    (besideConfig document).discover "pkg" =
      (Step.runAll "pkg" "/pkg" ⟨"pkg"⟩
        ((FileNode.directory (configPackage document)).steps "pkg")).map (.ofPackage ⟨"pkg"⟩) := by
  have hcanonical : (besideConfig document).canonical? "pkg" = some ["pkg"] := rfl
  have hnode : (besideConfig document).node? ["pkg"] =
    some (.directory (configPackage document)) := rfl
  have hnamed : (besideConfig document).isNamed "pkg" = true := rfl
  rw [discover_of_directory hcanonical hnode, loadPackage_of_isPackageAt hcanonical hnode rfl,
    checkNamed_of_isNamed hnamed]
  rfl

theorem wellFormed_configPackage :
    (FileNode.directory (configPackage "types.json")).WellFormed := by
  have hdocument : emptyDocument.WellFormed := .stored _
  have hconfig : (FileNode.directory [("__init__.json", emptyDocument)]).WellFormed :=
    .directory (by decide) (by decide) (by simpa using hdocument)
  exact .directory (by decide) (by decide) (by simp [configPackage, hdocument, hconfig])

theorem tellsApart_besideConfig : (besideConfig "types.json").TellsApart "pkg" := by
  have hcanonical : (besideConfig "types.json").canonical? "pkg" = some ["pkg"] := by decide
  refine .package hcanonical rfl (FileNode.tellsApart_of_contents wellFormed_configPackage ?_ ?_)
  · rw [FileNode.contents, steps_configPackage rfl rfl]
    decide
  · rw [FileNode.contents, steps_configPackage rfl rfl]
    decide

/-- A package without a document of the name of its sub-package. -/
theorem discover_identifies_besideConfig :
    (besideConfig "types.json").root.WellFormed ∧ (besideConfig "types.json").TellsApart "pkg" ∧
      ∃ target, (besideConfig "types.json").discover "pkg" = .ok target ∧
        (target.units.map SourceUnit.path).Nodup ∧
        ∀ u ∈ target.units,
          Environment.AgreeOn {u.path} target.environment (Environment.empty.addUnit u) := by
  have hwf : (besideConfig "types.json").root.WellFormed :=
    .directory (by decide) (by decide) (by simpa using wellFormed_configPackage)
  have hdiscover := discover_besideConfig "types.json"
  rw [steps_configPackage rfl rfl] at hdiscover
  exact ⟨hwf, tellsApart_besideConfig, _, hdiscover,
    discover_identifies _ _ _ hwf tellsApart_besideConfig hdiscover⟩

/-- A document and a sub-package of one name are modules of one path. -/
theorem discover_sameName :
    ∃ target, (besideConfig "config.json").discover "pkg" = .ok target ∧
      target.units.map SourceUnit.path = [⟨"pkg"⟩, ⟨"pkg.config"⟩, ⟨"pkg.config"⟩] := by
  rw [discover_besideConfig, steps_configPackage rfl rfl]
  exact ⟨_, rfl, rfl⟩

end FileTree

end CallSchema
