import Mathlib.Data.List.Perm.Basic
import CallSchema.Proofs.PackageWalk

/-! # A document in its package

A single document in a package is scanned with the modules of the top-most package around it. Its
own place in that package is found by climbing, and the modules around it by a walk that leaves out
what cannot be loaded. Where the package can be loaded, both agree with the walk that loads it, as
far as the document is within the limit on paths.
-/

namespace CallSchema

open FileTree

namespace FileNode

variable {dir : String} {node : FileNode} {es : List (String × FileNode)}
  {refusal : Option AccessFault} {package : ModulePath} {d : Document}

theorem listed_directory : Listed dir (.directory es refusal) ↔
    refusal = none ∧ ∀ e ∈ es, e.2.isPackageAt (joinPath dir e.1) = true →
      e.2.Listed (joinPath dir e.1) := by
  constructor
  · intro h
    refine ⟨h [] refusal (mem_steps_directory.mpr (.inr (.inl rfl))), fun e he hpackage => ?_⟩
    intro below other hlist
    refine h (e.1 :: below) other (mem_steps_directory.mpr (.inr (.inr (mem_stepsBelow.mpr ?_))))
    exact ⟨e.1, e.2, he, hpackage, _, hlist, rfl⟩
  · rintro ⟨hrefusal, hsub⟩ below other hlist
    rcases mem_steps_directory.mp hlist with ⟨_, _, -, heq⟩ | heq | hbelow
    · cases heq
    · cases heq
      exact hrefusal
    · obtain ⟨name, sub, hentry, hpackage, s, hs, heq⟩ := mem_stepsBelow.mp hbelow
      cases s with
      | load d => cases heq
      | list below' refusal' =>
        cases heq
        exact hsub _ hentry hpackage _ _ hs

theorem namedSources_of_isPackageAt (h : node.isPackageAt dir = true) (ahead : String → Bool) :
    namedSources ahead dir dir package node = node.sources ahead dir dir package :=
  if_pos (withinLimit_of_isPackageAt h)

theorem sources_byName {real : String} :
    sources (fun _ => false) dir real package (.directory es none) =
      sourceFiles dir package (sortByName (documents dir es)) ++
        sourcesBelow (fun _ => false) dir real package es := by
  rw [sources_directory]
  simp [sourceFiles]

/-- A walk by name of what can be listed meets the documents of the package. -/
theorem sources_perm (h : node.Listed dir) :
    (node.sources (fun _ => false) dir dir package).Perm
      ((node.contents dir).map fun d => .ok (d.source dir package)) := by
  induction node using induct generalizing dir package with
  | stored content => exact .refl _
  | directory es refusal ih =>
    obtain ⟨rfl, hsub⟩ := listed_directory.mp h
    have hdocs : (sourceFiles dir package (sortByName (documents dir es))).Perm
        (((packageOrder (documents dir es)).map fun p => (⟨[], p.1, p.2⟩ : Document)).map
          fun d => .ok (d.source dir package)) := by
      rw [List.map_map]
      exact ((sortByName_perm _).trans (packageOrder_perm _).symm).map _
    have hbelow : (sourcesBelow (fun _ => false) dir dir package es).Perm
        (((sortByName (subPackages dir es)).flatMap fun e =>
          (contents (joinPath dir e.1) e.2).map (Document.under e.1)).map
            fun d => .ok (d.source dir package)) := by
      rw [List.map_flatMap]
      refine List.Perm.flatMap_left _ fun e he => ?_
      obtain ⟨hentry, hpackage⟩ := List.mem_filter.mp ((sortByName_perm _).mem_iff.mp he)
      rw [namedSources_of_isPackageAt hpackage, List.map_map]
      exact ih e hentry (hsub e hentry hpackage)
    rw [sources_byName, contents_directory, List.map_append]
    exact hdocs.append hbelow

/-- A walk by name meets an error unless all directories can be listed. -/
theorem listed_of_sources
    (h : ∀ f ∈ node.sources (fun _ => false) dir dir package, ∃ file, f = .ok file) :
    node.Listed dir := by
  induction node using induct generalizing dir package with
  | stored content =>
    intro below refusal hlist
    cases hlist
  | directory es refusal ih =>
    cases refusal with
    | some fault =>
      obtain ⟨file, hfile⟩ := h (.error (.unreadable dir fault)) (by simp [sources_refused])
      cases hfile
    | none =>
      refine listed_directory.mpr ⟨rfl, fun e he hpackage => ?_⟩
      refine @ih e he _ (package.join e.1) fun f hf => h f ?_
      rw [sources_byName, sourcesBelow]
      refine List.mem_append_right _ (List.mem_flatMap.mpr ⟨e, ?_, ?_⟩)
      · exact (sortByName_perm _).mem_iff.mpr (List.mem_filter.mpr ⟨he, hpackage⟩)
      · rwa [namedSources_of_isPackageAt hpackage]

theorem exists_sources (h : node.Listed dir) (package : ModulePath) :
    ∃ files, (node.sources (fun _ => false) dir dir package).mapM id = .ok files := by
  obtain ⟨files, hfiles⟩ := exists_eq_map_ok fun f hf => by
    obtain ⟨d, -, hd⟩ := List.mem_map.mp ((sources_perm h).mem_iff.mp hf)
    exact ⟨_, hd.symm⟩
  exact ⟨files, mapM_id_eq_ok_iff.mpr hfiles⟩

/-- A walk by name that meets no error has listed all directories and met all documents. -/
theorem listed_and_perm {files : List SourceFile}
    (h : (node.sources (fun _ => false) dir dir package).mapM id = .ok files) :
    node.Listed dir ∧ files.Perm ((node.contents dir).map (Document.source dir package)) := by
  rw [mapM_id_eq_ok_iff] at h
  have hlisted : node.Listed dir := by
    apply @listed_of_sources _ _ package
    intro f hf
    rw [h] at hf
    obtain ⟨file, -, rfl⟩ := List.mem_map.mp hf
    exact ⟨file, rfl⟩
  have hperm := @sources_perm _ _ package hlisted
  rw [h] at hperm
  refine ⟨hlisted, ?_⟩
  simpa [List.filterMap_map, Function.comp_def, Except.toOption] using
    hperm.filterMap Except.toOption

theorem mem_contents_directory : d ∈ contents dir (.directory es refusal) ↔
    (∃ name content, (name, content) ∈ documents dir es ∧ d = ⟨[], name, content⟩) ∨
      ∃ name sub, (name, sub) ∈ es ∧ sub.isPackageAt (joinPath dir name) = true ∧
        ∃ e ∈ contents (joinPath dir name) sub, d = e.under name := by
  simp only [contents_directory, List.mem_append, List.mem_map, List.mem_flatMap, Prod.exists,
    (packageOrder_perm _).mem_iff, (sortByName_perm _).mem_iff, subPackages, List.mem_filter,
    eq_comm, and_assoc]

theorem extension_of_mem_contents (h : d ∈ contents dir node) :
    hasExtension "json" d.name = true := by
  induction node using induct generalizing dir d with
  | stored content => cases h
  | directory es refusal ih =>
    rcases mem_contents_directory.mp h with ⟨_, _, hdocument, rfl⟩ | ⟨_, sub, hentry, -, e, he, rfl⟩
    · exact (mem_documents.mp hdocument).2.1
    · exact ih (_, sub) hentry (d := e) he

end FileNode

namespace FileTree

variable {t : FileTree} {path : String} {top below : List String} {name : String}

theorem packageContext_eq {node : FileNode} (hnode : t.node? top = some node) :
    t.packageContext top =
      ((node.sources (fun _ => false) (absolutePath top) (absolutePath top) ⟨lastName top⟩).mapM
        id).map (List.filterMap SourceFile.load?) := by
  rw [packageContext, hnode]
  rfl

/-- The modules around a document are there if all directories of the package can be listed. -/
theorem packageContext_of_listed {node : FileNode} (hnode : t.node? top = some node)
    (h : node.Listed (absolutePath top)) :
    ∃ files : List SourceFile, t.packageContext top = .ok (files.filterMap SourceFile.load?) ∧
      files.Perm ((node.contents (absolutePath top)).map
        (Document.source (absolutePath top) ⟨lastName top⟩)) := by
  obtain ⟨files, hfiles⟩ := FileNode.exists_sources h ⟨lastName top⟩
  refine ⟨files, ?_, (FileNode.listed_and_perm hfiles).2⟩
  rw [packageContext_eq hnode, hfiles]
  rfl

theorem listed_of_packageContext {node : FileNode} {context : List SourceUnit}
    (hnode : t.node? top = some node) (h : t.packageContext top = .ok context) :
    node.Listed (absolutePath top) := by
  rw [packageContext_eq hnode] at h
  obtain ⟨files, hfiles, -⟩ := map_eq_ok.mp h
  exact (FileNode.listed_and_perm hfiles).1

/-- The top-most package around the directory `top ++ below`: the directories from `top` down to it
are packages, and the one above `top` is none. -/
structure IsTopPackage (t : FileTree) (top below : List String) : Prop where
  packages : ∀ front, front <+: below →
    t.isPackageAt (absolutePath (top ++ front)) (top ++ front) = true
  topmost : ∀ above name, top = above ++ [name] → t.isPackageAt (absolutePath above) above = false

/-- Climbing ends at the top-most package. -/
theorem IsTopPackage.topPackage_eq (h : t.IsTopPackage top below) (deeper : List String) :
    t.topPackage (top ++ below).reverse deeper = (top, below ++ deeper) := by
  induction below using List.reverseRecOn generalizing deeper with
  | nil =>
    rw [List.append_nil]
    rcases List.eq_nil_or_concat top with rfl | ⟨above, last, htop⟩
    · rfl
    · rw [List.concat_eq_append] at htop
      rw [htop, List.reverse_append, List.reverse_singleton, List.singleton_append, topPackage,
        List.reverse_reverse]
      simp [h.topmost above last htop]
  | append_singleton front last ih =>
    have hfront : t.IsTopPackage top front :=
      ⟨fun f hf => h.packages f (hf.trans (List.prefix_append front [last])), h.topmost⟩
    have hpackage := h.packages front (List.prefix_append front [last])
    rw [← List.append_assoc, List.reverse_append, List.reverse_singleton, List.singleton_append,
      topPackage, List.reverse_reverse, if_pos hpackage, ih hfront]
    simp

/-- The documents beside the file at a path. -/
def siblingDocuments (t : FileTree) (dir path : String) (es : List (String × FileNode)) :
    List (String × FileContent) :=
  (sortByName (documents dir es)).filter fun d => !t.sameFile (joinPath dir d.1) path

theorem siblingContext_of_listed {dir : String} {names : List String}
    {es : List (String × FileNode)} (hnode : t.node? names = some (.directory es)) :
    t.siblingContext dir names path =
      .ok (((t.siblingDocuments dir path es).map fun d =>
        SourceFile.ofName dir .root d.1 d.2).filterMap SourceFile.load?) := by
  rw [siblingContext, hnode, List.filterMap_map]
  rfl

/-- Outside of packages, a document is scanned with those beside it. -/
theorem moduleTarget_beside {names : List String} {tree : SyntaxTree} {context : List SourceUnit}
    (hpackage : t.isPackageAt (parentPath path) names.dropLast = false)
    (hcontext : t.siblingContext (parentPath path) names.dropLast path = .ok context) :
    t.moduleTarget path names tree =
      .ok (.ofModule
        ((SourceFile.ofName (parentPath path) .root (lastName names) (.ok .empty)).unit tree)
        context) := by
  rw [moduleTarget, hpackage, hcontext]
  rfl

/-- The documents of the package to which the names lead, in the order of its modules. -/
def packageSources (t : FileTree) (top : List String) : List SourceFile :=
  match t.node? top with
  | some node =>
    (node.contents (absolutePath top)).map (Document.source (absolutePath top) ⟨lastName top⟩)
  | none => []

/-- The module that a document of the package is. -/
def documentUnit (top below : List String) (name : String) (tree : SyntaxTree) : SourceUnit :=
  (SourceFile.ofName (absolutePath (top ++ below)) (below.foldl ModulePath.join ⟨lastName top⟩) name
    (.ok .empty)).unit tree

/-- A document in a directory that is a package. The path may spell the way to it in any manner, as
long as the system can find out the path of the directory from the root, and the path of the
document from the root is within the limit. -/
structure IsDocument (t : FileTree) (path : String) (dir : List String) (name : String) : Prop where
  leads : t.canonical? path = some (dir ++ [name])
  leadsFromRoot : t.canonical? (absolutePath (dir ++ [name])) = some (dir ++ [name])
  isFile : t.isFile path = true
  extension : hasExtension "json" name = true
  inPackage : t.isPackageAt (parentPath path) dir = true
  isNamed : t.isNamed (parentPath path) = true

namespace IsDocument

variable {dir : List String}

theorem isName (h : t.IsDocument path dir name) : ∀ n ∈ dir, IsName n := fun n hn =>
  isName_of_canonical? h.leadsFromRoot n (List.mem_append_left [name] hn)

theorem exists_content (h : t.IsDocument path dir name) :
    ∃ content, t.node? (dir ++ [name]) = some (.stored content) :=
  exists_file_of_isFile h.leads h.isFile

end IsDocument

namespace IsTopPackage

theorem exists_node (htop : t.IsTopPackage top below) :
    ∃ node, t.node? top = some node ∧ node.isPackageAt (absolutePath top) = true := by
  have hpackage := htop.packages [] List.nil_prefix
  rw [List.append_nil] at hpackage
  exact isPackageAt_iff.mp hpackage

/-- The path from the root leads to the top-most package, and it can be named by it. -/
theorem isNamed (htop : t.IsTopPackage top below) (hnames : ∀ n ∈ top, IsName n) :
    t.isNamed (absolutePath top) = true := by
  obtain ⟨node, -, hpackage⟩ := htop.exists_node
  rw [isNamed_absolutePath hnames]
  exact withinLimit_of_isPackageAt hpackage

theorem discover_eq (htop : t.IsTopPackage top below) (h : t.IsDocument path (top ++ below) name)
    {context : List SourceUnit} (hcontext : t.packageContext top = .ok context)
    {content : FileContent} {tree : SyntaxTree}
    (hcontent : t.node? (top ++ below ++ [name]) = some (.stored content))
    (htree : SyntaxTree.ofFile path content = .ok tree) :
    t.discover path =
      .ok (.ofModule (documentUnit top below name tree)
        (context.filter fun u => u.path ≠ (documentUnit top below name tree).path)) := by
  have hname : lastName (top ++ below ++ [name]) = name := by simp [lastName]
  have htopNames : ∀ n ∈ top, IsName n := fun n hn => h.isName n (List.mem_append_left below hn)
  rw [discover_of_stored h.leads hcontent, htree, documentUnit,
    SourceFile.unit_ofName (parentPath path) (.ok .empty)]
  dsimp only [bind, Except.bind]
  rw [moduleTarget, List.dropLast_concat, hname, if_pos h.inPackage,
    checkNamed_of_isNamed h.isNamed, htop.topPackage_eq, List.append_nil]
  dsimp only [bind, Except.bind]
  rw [checkNamed_of_isNamed (htop.isNamed htopNames), hcontext]

/-- The modules of the package are its documents, one by one, and all of it can be listed. -/
theorem forall₂_load (htop : t.IsTopPackage top below) (hnames : ∀ n ∈ top, IsName n)
    {package : ScanTarget} (h : t.loadPackage (absolutePath top) = .ok package) :
    ∃ node, t.node? top = some node ∧ node.Listed (absolutePath top) ∧
      List.Forall₂ (fun f u => f.load = .ok u) (t.packageSources top) package.units := by
  obtain ⟨node, hnode, hpackage⟩ := htop.exists_node
  obtain ⟨es, refusal, rfl⟩ := exists_directory_of_isPackageAt hpackage
  have hcanonical := canonical?_absolutePath hnames hnode (withinLimit_of_isPackageAt hpackage)
  obtain ⟨-, hlisted, units, rfl, hunits⟩ := loadPackage_eq_ok hcanonical hnode h
  refine ⟨_, hnode, hlisted, ?_⟩
  rw [packageSources, hnode]
  refine List.forall₂_map_left_iff.mpr ?_
  rw [List.forall₂_iff_zip] at hunits ⊢
  refine ⟨hunits.1, fun {d u} hdu => ?_⟩
  have hext := FileNode.extension_of_mem_contents (List.of_mem_zip hdu).1
  have hload := hunits.2 hdu
  rw [Document.load_source hext] at hload
  obtain ⟨-, -, hload⟩ := bind_eq_ok.mp hload
  exact hload

end IsTopPackage

theorem pathBelow_absolutePath {top below : List String} (hnames : ∀ n ∈ top ++ below, IsName n) :
    pathBelow (absolutePath top) below = absolutePath (top ++ below) := by
  induction below generalizing top with
  | nil => simp [pathBelow]
  | cons name below ih =>
    have htop : ∀ n ∈ top, IsName n := fun n hn => hnames n (List.mem_append_left _ hn)
    rw [List.append_cons] at hnames ⊢
    rw [← ih hnames, ← joinPath_absolutePath htop]
    rfl

/-- A document belongs to a package if the directories on the way to it are packages. -/
theorem mem_contents {node : FileNode} {content : FileContent}
    (hnames : ∀ n ∈ top ++ below, IsName n)
    (hpackages : ∀ front, front <+: below →
      t.isPackageAt (absolutePath (top ++ front)) (top ++ front) = true)
    (hnode : t.node? top = some node)
    (hfile : t.node? (top ++ below ++ [name]) = some (.stored content))
    (hext : hasExtension "json" name = true)
    (hlimit : withinLimit (absolutePath (top ++ below ++ [name])) = true) :
    ⟨below, name, content⟩ ∈ node.contents (absolutePath top) := by
  induction below generalizing top node with
  | nil =>
    rw [List.append_nil] at *
    obtain ⟨es, refusal, next, hes, hnext, hrest⟩ := node?_cons_some hfile
    cases hrest
    cases hnode.symm.trans hes
    refine FileNode.mem_contents_directory.mpr (.inl ⟨name, content, ?_, rfl⟩)
    refine FileNode.mem_documents.mpr ⟨Table.mem_of_find? hnext, hext, ?_⟩
    rwa [joinPath_absolutePath hnames]
  | cons sub below ih =>
    have htop : ∀ n ∈ top, IsName n := fun n hn => hnames n (List.mem_append_left _ hn)
    obtain ⟨next, hnext, hpackage⟩ := isPackageAt_iff.mp (hpackages [sub] (by simp))
    obtain ⟨es, refusal, found, hes, hfound, hrest⟩ := node?_cons_some hnext
    cases hrest
    cases hnode.symm.trans hes
    rw [List.append_cons top sub below] at hnames hfile hlimit
    have hmem := ih hnames (fun front hfront => by
      have hpackage := hpackages (sub :: front) ((List.prefix_cons_inj sub).mpr hfront)
      rwa [List.append_cons top sub front] at hpackage) hnext hfile hlimit
    rw [← joinPath_absolutePath htop] at hpackage hmem
    exact FileNode.mem_contents_directory.mpr
      (.inr ⟨sub, next, Table.mem_of_find? hfound, hpackage, _, hmem, rfl⟩)

theorem IsTopPackage.mem_packageSources (htop : t.IsTopPackage top below)
    (h : t.IsDocument path (top ++ below) name) {content : FileContent}
    (hcontent : t.node? (top ++ below ++ [name]) = some (.stored content)) :
    SourceFile.ofName (absolutePath (top ++ below)) (below.foldl ModulePath.join ⟨lastName top⟩)
      name content ∈ t.packageSources top := by
  obtain ⟨node, hnode, -⟩ := htop.exists_node
  have hmem := mem_contents h.isName htop.packages hnode hcontent h.extension
    (withinLimit_of_canonical? h.leadsFromRoot)
  rw [packageSources, hnode, ← pathBelow_absolutePath h.isName]
  exact List.mem_map.mpr ⟨_, hmem, rfl⟩

/-- A document of a package and the package see the same modules: the document is the module that is
loaded from it in the package, and the modules around it are all the others of the package, each
once. -/
theorem discover_agrees_with_package (t : FileTree) (path : String) (top below : List String)
    (name : String) (package : ScanTarget) (hdocument : t.IsDocument path (top ++ below) name)
    (htop : t.IsTopPackage top below) (hload : t.loadPackage (absolutePath top) = .ok package)
    (hdistinct : (package.units.map SourceUnit.path).Nodup) :
    ∃ target source own others context, t.discover path = .ok target ∧
      (source, own) ∈ (t.packageSources top).zip package.units ∧ source.load = .ok own ∧
      source.path = absolutePath (top ++ below ++ [name]) ∧
      package.units.Perm (own :: others) ∧ target.units = own :: context ∧
      context.Perm (others.map fun u => { u with contextOnly := true }) := by
  obtain ⟨content, hcontent⟩ := hdocument.exists_content
  obtain ⟨node, hnode, hlisted, hunits⟩ := htop.forall₂_load
    (fun n hn => hdocument.isName n (List.mem_append_left below hn)) hload
  obtain ⟨files, hcontext, hfiles⟩ := packageContext_of_listed hnode hlisted
  have hperm : (files.filterMap SourceFile.load?).Perm package.units := by
    rw [packageSources, hnode] at hunits
    rw [← SourceFile.filterMap_load? hunits]
    exact hfiles.filterMap _
  have hsource := htop.mem_packageSources hdocument hcontent
  obtain ⟨own, hown⟩ := exists_mem_zip hunits.length_eq hsource
  have hloaded := List.forall₂_zip hunits hown
  obtain ⟨tree, htree, hunit⟩ := map_eq_ok.mp (SourceFile.load_ofName.symm.trans hloaded)
  rw [SourceFile.unit_ofName (absolutePath (top ++ below)) (.ok .empty), ← documentUnit] at hunit
  subst hunit
  have hdiscover :=
    htop.discover_eq hdocument hcontext hcontent (SyntaxTree.ofFile_of_ok htree path)
  have hothers := perm_cons_filter hdistinct (List.of_mem_zip hown).2
  refine ⟨_, _, _, _, _, hdiscover, hown, hloaded, ?_, hothers, rfl, ?_⟩
  · rw [SourceFile.path_ofName, joinPath_absolutePath hdocument.isName]
  · exact (hperm.filter _).map _

theorem steps_subPackage :
    (FileNode.directory subPackage).steps "/work/pkg/sub" =
      [.load ⟨[], "__init__.json", .ok "[]".toUTF8⟩, .list [] none,
        .load ⟨[], "m.json", .ok "[]".toUTF8⟩] := by
  have hdocuments : documents "/work/pkg/sub" subPackage =
      [("__init__.json", .ok "[]".toUTF8), ("m.json", .ok "[]".toUTF8)] := rfl
  have hsub : FileNode.subPackages "/work/pkg/sub" subPackage = [] := rfl
  have hpackage : isPackageStem "__init__.json" = true := rfl
  have hmodule : isPackageStem "m.json" = false := rfl
  rw [FileNode.steps_directory, hdocuments, FileNode.stepsBelow, hsub]
  simp [FileNode.loads, sortByName, hpackage, hmodule]

theorem steps_nestedPackages :
    (FileNode.directory [("__init__.json", emptyDocument), ("sub", .directory subPackage)]).steps
        "/work/pkg" =
      [.load ⟨[], "__init__.json", .ok "[]".toUTF8⟩, .list [] none,
        .load ⟨["sub"], "__init__.json", .ok "[]".toUTF8⟩, .list ["sub"] none,
        .load ⟨["sub"], "m.json", .ok "[]".toUTF8⟩] := by
  have hdocuments : documents "/work/pkg"
      [("__init__.json", emptyDocument), ("sub", .directory subPackage)] =
        [("__init__.json", .ok "[]".toUTF8)] := rfl
  have hsub : FileNode.subPackages "/work/pkg"
      [("__init__.json", emptyDocument), ("sub", .directory subPackage)] =
        [("sub", .directory subPackage)] := rfl
  have hpath : joinPath "/work/pkg" "sub" = "/work/pkg/sub" := rfl
  have hpackage : isPackageStem "__init__.json" = true := rfl
  rw [FileNode.steps_directory, hdocuments, FileNode.stepsBelow, hsub]
  simp [FileNode.loads, sortByName, hpackage, hpath, steps_subPackage, Step.under, Document.under]

theorem loadPackage_nestedPackages :
    nestedPackages.loadPackage "/work/pkg" =
      .ok (.ofPackage ⟨"pkg"⟩ [⟨⟨"pkg"⟩, true, ⟨[]⟩, false⟩, ⟨⟨"pkg.sub"⟩, true, ⟨[]⟩, false⟩,
        ⟨⟨"pkg.sub.m"⟩, false, ⟨[]⟩, false⟩]) := by
  have hcanonical : nestedPackages.canonical? "/work/pkg" = some ["work", "pkg"] := by decide
  rw [loadPackage_of_isPackageAt hcanonical rfl rfl, checkNamed_of_isNamed (by decide),
    steps_nestedPackages]
  rfl

theorem isTopPackage_nestedPackages : nestedPackages.IsTopPackage ["work", "pkg"] ["sub"] := by
  constructor
  · intro front hfront
    rcases List.prefix_cons_iff.mp hfront with rfl | ⟨rest, rfl, hrest⟩
    · rfl
    · rw [List.prefix_nil.mp hrest]
      rfl
  · intro above name htop
    have hsplit : ["work"] ++ ["pkg"] = above ++ [name] := htop
    obtain ⟨rfl, -⟩ := List.append_inj' hsplit rfl
    rfl

theorem isDocument_nestedPackages :
    nestedPackages.IsDocument "pkg/sub/m.json" ["work", "pkg", "sub"] "m.json" :=
  ⟨by decide, by decide, rfl, rfl, rfl, by decide⟩

theorem discover_agrees_with_package_nested :
    ∃ package, nestedPackages.loadPackage "/work/pkg" = .ok package ∧
      (package.units.map SourceUnit.path).Nodup ∧
      ∃ target source own others context,
        nestedPackages.discover "pkg/sub/m.json" = .ok target ∧
        (source, own) ∈ (nestedPackages.packageSources ["work", "pkg"]).zip package.units ∧
        source.load = .ok own ∧ source.path = "/work/pkg/sub/m.json" ∧
        package.units.Perm (own :: others) ∧ target.units = own :: context ∧
        context.Perm (others.map fun u => { u with contextOnly := true }) := by
  refine ⟨_, loadPackage_nestedPackages, by decide, ?_⟩
  exact discover_agrees_with_package nestedPackages "pkg/sub/m.json" ["work", "pkg"] ["sub"]
    "m.json" _ isDocument_nestedPackages isTopPackage_nestedPackages loadPackage_nestedPackages
    (by decide)

/-- A document of the sub-package, with many slashes on the way. -/
def farDocument : String :=
  withSlashes "pkg" 4079 ++ "/" ++ "sub" ++ "/" ++ "m.json"

theorem canonical?_farDocument :
    nestedPackages.canonical? farDocument = some ["work", "pkg", "sub", "m.json"] := by
  have hfar : ∃ rest, farDocument = "pkg" ++ rest := by
    simp only [farDocument, withSlashes, String.append_assoc]
    exact ⟨_, rfl⟩
  obtain ⟨rest, hrest⟩ := hfar
  have hne : farDocument ≠ "" := hrest ▸ append_ne_empty (by decide) rest
  have hwithin : withinLimit farDocument = true := by
    have hsize : farDocument.utf8ByteSize = 4093 := by
      simp only [farDocument, String.utf8ByteSize_append, utf8ByteSize_withSlashes]
      rfl
    rw [withinLimit, hsize]
    rfl
  have hstart : nestedPackages.start farDocument = ["work"] :=
    hrest ▸ start_append (by decide) rest
  have hparts : parts farDocument = parts (withSlashes "pkg" 4079) ++ ["sub", "m.json"] := by
    rw [farDocument, parts_append, parts_append, List.append_assoc]
    rfl
  have hnode : nestedPackages.node? (["work"] ++ ["pkg"]) =
    some (.directory [("__init__.json", emptyDocument), ("sub", .directory subPackage)]) := rfl
  rw [canonical?, if_pos ⟨hne, hwithin⟩, hstart, hparts, walk?_append,
    walk?_withSlashes (by decide) hnode]
  rfl

/-- A document is no module of its package if the path that leads to the document of the package is
too long: the package can be loaded, and the document is scanned outside of it. -/
theorem discover_farDocument :
    nestedPackages.canonical? farDocument = some ["work", "pkg", "sub", "m.json"] ∧
      (∃ package, nestedPackages.loadPackage "/work/pkg" = .ok package ∧
        package.units.map SourceUnit.path = [⟨"pkg"⟩, ⟨"pkg.sub"⟩, ⟨"pkg.sub.m"⟩]) ∧
      ∃ target, nestedPackages.discover farDocument = .ok target ∧
        target.units.head?.map SourceUnit.path = some ⟨"m"⟩ := by
  have hparent : parentPath farDocument = withSlashes "pkg" 4079 ++ "/" ++ "sub" :=
    parentPath_append (parts_append _ _) (by decide) (by decide)
  have hlong : pathLimit ≤ (parentPath farDocument).utf8ByteSize + 13 := by
    rw [hparent, String.utf8ByteSize_append, String.utf8ByteSize_append, utf8ByteSize_withSlashes]
    decide
  have hfile : nestedPackages.node? ["work", "pkg", "sub", "m.json"] = some emptyDocument := rfl
  have hdirectory : nestedPackages.node? ["work", "pkg", "sub"] = some (.directory subPackage) :=
    rfl
  have hpackage : nestedPackages.isPackageAt (parentPath farDocument) ["work", "pkg", "sub"] =
      false := by
    rw [isPackageAt_eq hdirectory]
    exact isPackageAt_of_long hlong _
  have htree : SyntaxTree.ofFile "m.json" (.ok "[]".toUTF8) = .ok ⟨[]⟩ := rfl
  obtain ⟨context, hcontext⟩ : ∃ context, nestedPackages.siblingContext (parentPath farDocument)
      ["work", "pkg", "sub"] farDocument = .ok context := ⟨_, siblingContext_of_listed hdirectory⟩
  refine ⟨canonical?_farDocument, ⟨_, loadPackage_nestedPackages, rfl⟩, ?_⟩
  rw [discover_of_stored canonical?_farDocument hfile]
  refine ⟨_, bind_eq_ok.mpr ⟨⟨[]⟩, SyntaxTree.ofFile_of_ok htree farDocument,
    moduleTarget_beside hpackage hcontext⟩, ?_⟩
  generalize parentPath farDocument = dir
  rfl

end FileTree

end CallSchema
