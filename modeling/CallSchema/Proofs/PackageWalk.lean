import Mathlib.Data.List.ReduceOption
import CallSchema.Proofs.PackageDocuments

/-! # The modules of a package

A package is loaded step by step in the order of a walk. Its modules are those of all its documents,
and what keeps the package from being loaded is the first step that fails: a document that cannot be
loaded, a directory that cannot be listed, or one whose path from the root is beyond the limit.
-/

namespace CallSchema

open FileTree

namespace Document

/-- The names on the way from the package to the module that the document is. -/
def segments (d : Document) : List String :=
  if d.name = packageDocument then d.below else d.below ++ [stem d.name]

def module (package : ModulePath) (d : Document) : ModulePath :=
  d.segments.foldl ModulePath.join package

def unit (package : ModulePath) (d : Document) (tree : SyntaxTree) : SourceUnit :=
  ⟨d.module package, decide (d.name = packageDocument), tree, false⟩

end Document

/-- A directory below the package at `dir` is entered only if its path from the root is within the
limit. That of the package itself is `real`. -/
def FileTree.enterBelow (dir real : String) (below : List String) : Except LoadError Unit :=
  if below = [] ∨ withinLimit (pathBelow real below) = true then .ok ()
  else .error (.unreadable (pathBelow dir below) .nameTooLong)

/-- The module of a document of the package at `dir`, whose path from the root is `real`. -/
def Document.load (dir real : String) (package : ModulePath) (d : Document) :
    Except LoadError SourceUnit := do
  enterBelow dir real d.below
  (SyntaxTree.ofFile (joinPath (pathBelow dir d.below) d.name) d.content).map (d.unit package)

/-- The module that a step in the package at `dir` adds, if any. -/
def Step.run (dir real : String) (package : ModulePath) :
    Step → Except LoadError (Option SourceUnit)
  | .load d => (d.load dir real package).map some
  | .list below refusal => do
    enterBelow dir real below
    match refusal with
    | some fault => .error (.unreadable (pathBelow dir below) fault)
    | none => .ok none

variable {dir real name : String} {package : ModulePath}

theorem enterBelow_cons (h : withinLimit (joinPath real name) = true) (below : List String) :
    enterBelow dir real (name :: below) =
      enterBelow (joinPath dir name) (joinPath real name) below := by
  cases below with
  | nil => exact if_pos (.inr h)
  | cons next below => simp [enterBelow, pathBelow]

theorem Document.segments_under (d : Document) : (d.under name).segments = name :: d.segments := by
  unfold segments under
  split <;> rfl

theorem Document.unit_under (d : Document) :
    (d.under name).unit package = d.unit (package.join name) := by
  funext tree
  unfold unit module
  rw [segments_under, List.foldl_cons]
  rfl

/-- The document as a file of the package at `dir`. -/
def Document.source (dir : String) (package : ModulePath) (d : Document) : SourceFile :=
  .ofName (pathBelow dir d.below) (d.below.foldl ModulePath.join package) d.name d.content

theorem Document.unit_source {d : Document} (hext : hasExtension "json" d.name = true) :
    (d.source dir package).unit = d.unit package := by
  have hstem := FileNode.isPackageStem_iff hext
  funext tree
  rw [source, SourceFile.ofName]
  by_cases hname : d.name = packageDocument
  · rw [if_pos (hstem.mpr hname)]
    simp [SourceFile.unit, unit, module, segments, hname]
  · rw [if_neg (mt hstem.mp hname)]
    simp [SourceFile.unit, unit, module, segments, hname]

theorem Document.load_source {d : Document} (hext : hasExtension "json" d.name = true) :
    d.load dir real package =
      enterBelow dir real d.below >>= fun _ => (d.source dir package).load := by
  have hload : (d.source dir package).load = _ := SourceFile.load_ofName
  rw [hload, ← source, unit_source hext]
  rfl

namespace Step

/-- A step below a directory is one of that directory. -/
theorem run_under (h : withinLimit (joinPath real name) = true) (s : Step) :
    (s.under name).run dir real package =
      s.run (joinPath dir name) (joinPath real name) (package.join name) := by
  cases s with
  | load d =>
    have hload : (d.under name).load dir real package =
        d.load (joinPath dir name) (joinPath real name) (package.join name) := by
      unfold Document.load
      rw [Document.unit_under, ← enterBelow_cons h]
      rfl
    exact congrArg (Except.map some) hload
  | list below refusal =>
    cases refusal with
    | none => rw [under, run, run, enterBelow_cons h]
    | some fault =>
      rw [under, run, run, enterBelow_cons h]
      rfl

/-- The steps below a directory beyond the limit begin with the error of that directory. -/
theorem run_under_of_beyond (h : ¬ withinLimit (joinPath real name) = true) {s : Step}
    (hbelow : s.below = []) : (s.under name).run dir real package =
      .error (.unreadable (joinPath dir name) .nameTooLong) := by
  have henter : enterBelow dir real [name] =
      .error (.unreadable (joinPath dir name) .nameTooLong) := by
    simp [enterBelow, pathBelow, h]
  cases s with
  | load d =>
    obtain ⟨_, file, content⟩ := d
    cases hbelow
    have hload : (Document.under name ⟨[], file, content⟩).load dir real package =
        .error (.unreadable (joinPath dir name) .nameTooLong) := by
      rw [Document.load, Document.under, henter]
      rfl
    exact congrArg (Except.map some) hload
  | list below refusal =>
    cases hbelow
    cases refusal <;> rw [under, run, henter] <;> rfl

/-- The modules that the steps add, up to the first that fails. -/
def runAll (dir real : String) (package : ModulePath) (steps : List Step) :
    Except LoadError (List SourceUnit) :=
  (steps.mapM (run dir real package)).map List.reduceOption

theorem runAll_append (xs ys : List Step) : runAll dir real package (xs ++ ys) =
    do return (← runAll dir real package xs) ++ (← runAll dir real package ys) := by
  simp only [runAll, List.mapM_append]
  cases xs.mapM (run dir real package) with
  | error fault => rfl
  | ok us =>
    cases ys.mapM (run dir real package) with
    | error fault => rfl
    | ok vs =>
      simp [Except.map, bind, Except.bind, pure, Except.pure, List.reduceOption_append]

theorem runAll_cons_load (d : Document) (rest : List Step) :
    runAll dir real package (.load d :: rest) =
      do return (← d.load dir real package) :: (← runAll dir real package rest) := by
  simp only [runAll, List.mapM_cons, run]
  cases d.load dir real package with
  | error fault => rfl
  | ok u => cases rest.mapM (run dir real package) <;> rfl

theorem runAll_cons_list (rest : List Step) :
    runAll dir real package (.list [] none :: rest) = runAll dir real package rest := by
  have hrun : run dir real package (.list [] none) = .ok none := rfl
  simp only [runAll, List.mapM_cons, hrun]
  cases rest.mapM (run dir real package) <;> rfl

theorem runAll_cons_of_error {s : Step} {fault : LoadError}
    (h : s.run dir real package = .error fault) (rest : List Step) :
    runAll dir real package (s :: rest) = .error fault := by
  rw [runAll, List.mapM_cons, h]
  rfl

theorem runAll_map_under (h : withinLimit (joinPath real name) = true) (steps : List Step) :
    runAll dir real package (steps.map (under name)) =
      runAll (joinPath dir name) (joinPath real name) (package.join name) steps := by
  have hrun : run dir real package ∘ under name =
      run (joinPath dir name) (joinPath real name) (package.join name) := funext (run_under h)
  rw [runAll, List.mapM_map, hrun, runAll]

end Step

namespace FileNode

variable {ahead : String → Bool} {es : List (String × FileNode)} {node : FileNode}
  {refusal : Option AccessFault}

/-- The documents of a package whose own path from the root has to be found out first. -/
def namedSources (ahead : String → Bool) (dir real : String) (package : ModulePath)
    (node : FileNode) : List (Except LoadError SourceFile) :=
  if withinLimit real then node.sources ahead dir real package
  else [.error (.unreadable dir .nameTooLong)]

theorem subSources_eq : subSources ahead dir real package es =
    (subPackages dir es).map fun e =>
      (e.1, namedSources ahead (joinPath dir e.1) (joinPath real e.1) (package.join e.1) e.2) := by
  induction es with
  | nil => rfl
  | cons e rest ih =>
    rw [subSources]
    split
    · rename_i hpackage
      simp [subPackages, hpackage, ih, namedSources]
    · rename_i hpackage
      simp [subPackages, hpackage, ih]

/-- The documents of the sub-packages of a directory. -/
def sourcesBelow (ahead : String → Bool) (dir real : String) (package : ModulePath)
    (es : List (String × FileNode)) : List (Except LoadError SourceFile) :=
  (sortByName (subPackages dir es)).flatMap fun e =>
    namedSources ahead (joinPath dir e.1) (joinPath real e.1) (package.join e.1) e.2

theorem sources_directory : sources ahead dir real package (.directory es none) =
    sourceFiles dir package ((documents dir es).filter fun d => ahead d.1) ++
      (sourceFiles dir package (sortByName ((documents dir es).filter fun d => !ahead d.1)) ++
        sourcesBelow ahead dir real package es) := by
  rw [sources, subSources_eq, sortByName_map, List.flatMap_map]
  rfl

theorem sources_refused {fault : AccessFault} :
    sources ahead dir real package (.directory es (some fault)) =
      sourceFiles dir package ((documents dir es).filter fun d => ahead d.1) ++
        [.error (.unreadable dir fault)] :=
  rfl

/-- A walk begins in the directory itself. -/
theorem exists_steps_eq_cons (dir : String) (es : List (String × FileNode))
    (refusal : Option AccessFault) :
    ∃ s rest, steps dir (.directory es refusal) = s :: rest ∧ s.below = [] := by
  rw [steps_directory]
  cases hdocs : (documents dir es).filter fun d => isPackageStem d.1 with
  | nil => exact ⟨_, _, rfl, rfl⟩
  | cons p docs => exact ⟨_, _, rfl, rfl⟩

theorem mapM_sourceFiles {docs : List (String × FileContent)}
    (hext : ∀ p ∈ docs, hasExtension "json" p.1 = true) :
    (sourceFiles dir package docs).mapM (· >>= SourceFile.load) =
      Step.runAll dir real package (loads docs) := by
  induction docs with
  | nil => rfl
  | cons p docs ih =>
    obtain ⟨hp, hdocs⟩ := List.forall_mem_cons.mp hext
    have hload : (⟨[], p.1, p.2⟩ : Document).load dir real package =
        (SourceFile.ofName dir package p.1 p.2).load :=
      Document.load_source (d := ⟨[], p.1, p.2⟩) hp
    have hcons : loads (p :: docs) = .load ⟨[], p.1, p.2⟩ :: loads docs := rfl
    rw [hcons, Step.runAll_cons_load, hload, ← ih hdocs, sourceFiles, List.map_cons,
      List.mapM_cons]
    rfl

theorem mapM_sourcesBelow
    (h : ∀ e ∈ es, e.2.isPackageAt (joinPath dir e.1) = true →
      withinLimit (joinPath real e.1) = true →
      (sources isPackageStem (joinPath dir e.1) (joinPath real e.1) (package.join e.1) e.2).mapM
          (· >>= SourceFile.load) =
        Step.runAll (joinPath dir e.1) (joinPath real e.1) (package.join e.1)
          (steps (joinPath dir e.1) e.2)) :
    (sourcesBelow isPackageStem dir real package es).mapM (· >>= SourceFile.load) =
      Step.runAll dir real package (stepsBelow dir es) := by
  have hsub : ∀ e ∈ sortByName (subPackages dir es),
      (namedSources isPackageStem (joinPath dir e.1) (joinPath real e.1) (package.join e.1)
          e.2).mapM (· >>= SourceFile.load) =
        Step.runAll dir real package ((steps (joinPath dir e.1) e.2).map (Step.under e.1)) := by
    intro e he
    obtain ⟨hentry, hpackage⟩ := List.mem_filter.mp ((sortByName_perm _).mem_iff.mp he)
    by_cases hreal : withinLimit (joinPath real e.1) = true
    · rw [namedSources, if_pos hreal, Step.runAll_map_under hreal]
      exact h e hentry hpackage hreal
    · -- All steps are beyond the limit, and the first one reports it as the package does.
      obtain ⟨es', refusal, hnode⟩ := exists_directory_of_isPackageAt hpackage
      obtain ⟨s, rest, hsteps, hbelow⟩ := exists_steps_eq_cons (joinPath dir e.1) es' refusal
      rw [namedSources, if_neg hreal, hnode, hsteps, List.map_cons,
        Step.runAll_cons_of_error (Step.run_under_of_beyond hreal hbelow)]
      rfl
  unfold sourcesBelow stepsBelow
  generalize sortByName (subPackages dir es) = subs at hsub
  induction subs with
  | nil => rfl
  | cons e subs ih =>
    obtain ⟨he, hsubs⟩ := List.forall_mem_cons.mp hsub
    rw [List.flatMap_cons, List.flatMap_cons, List.mapM_append, Step.runAll_append, he, ih hsubs]

/-- Loading the files of a package is taking the steps of a walk. -/
theorem mapM_sources : (sources isPackageStem dir real package node).mapM (· >>= SourceFile.load) =
    Step.runAll dir real package (steps dir node) := by
  induction node using induct generalizing dir real package with
  | stored content => rfl
  | directory es refusal ih =>
    have hext : ∀ p ∈ documents dir es, hasExtension "json" p.1 = true := fun p hp =>
      (mem_documents.mp hp).2.1
    have hfirst := @mapM_sourceFiles dir real package
      ((documents dir es).filter fun d => isPackageStem d.1)
      fun p hp => hext p (List.mem_of_mem_filter hp)
    have hothers := @mapM_sourceFiles dir real package
      (sortByName ((documents dir es).filter fun d => !isPackageStem d.1))
      fun p hp => hext p (List.mem_of_mem_filter ((sortByName_perm _).mem_iff.mp hp))
    rw [steps_directory, Step.runAll_append, ← hfirst]
    cases refusal with
    | none =>
      rw [sources_directory, Step.runAll_cons_list, Step.runAll_append, List.mapM_append,
        List.mapM_append, hothers, mapM_sourcesBelow fun e he _ _ => ih e he]
    | some fault =>
      have hrefused : Step.run dir real package (.list [] (some fault)) =
        .error (.unreadable dir fault) := rfl
      rw [sources_refused, List.mapM_append, Step.runAll_cons_of_error hrefused]
      rfl

end FileNode

namespace FileTree

variable {t : FileTree} {path : String} {names : List String} {node : FileNode}

theorem loadPackage_of_not_isPackageAt (hcanonical : t.canonical? path = some names)
    (hnode : t.node? names = some node) (hpackage : ¬ node.isPackageAt path = true) :
    t.loadPackage path = .error (.notPackage path) := by
  simp [loadPackage, hcanonical, hnode, hpackage]

theorem loadPackage_of_isPackageAt (hcanonical : t.canonical? path = some names)
    (hnode : t.node? names = some node) (hpackage : node.isPackageAt path = true) :
    t.loadPackage path = t.checkNamed path >>= fun _ =>
      (Step.runAll path (absolutePath names) ⟨lastName names⟩ (node.steps path)).map
        (.ofPackage ⟨lastName names⟩) := by
  rw [← FileNode.mapM_sources, loadPackage, hcanonical]
  dsimp only
  rw [hnode]
  dsimp only
  rw [if_pos hpackage]
  rfl

theorem checkNamed_of_isNamed (h : t.isNamed path = true) : t.checkNamed path = .ok () :=
  if_pos h

theorem checkNamed_of_not_isNamed (h : t.isNamed path = false) :
    t.checkNamed path = .error (.unreadable path .nameTooLong) := by
  simp [checkNamed, h]

end FileTree

theorem Step.forall₂_document {steps : List Step} {results : List (Option SourceUnit)}
    (h : List.Forall₂ (fun s r => s.run dir real package = .ok r) steps results) :
    List.Forall₂ (fun d u => Document.load dir real package d = .ok u)
      (steps.filterMap Step.document?) results.reduceOption := by
  induction h with
  | nil => exact .nil
  | @cons s result steps results hrun _ ih =>
    cases s with
    | load d =>
      obtain ⟨u, hu, rfl⟩ := map_eq_ok.mp hrun
      exact .cons hu ih
    | list below refusal =>
      obtain ⟨-, -, hresult⟩ := bind_eq_ok.mp hrun
      cases refusal with
      | some fault => cases hresult
      | none =>
        cases hresult
        exact ih

theorem Step.refusal_of_run {below : List String} {refusal : Option AccessFault}
    {result : Option SourceUnit}
    (h : Step.run dir real package (.list below refusal) = .ok result) : refusal = none := by
  obtain ⟨-, -, hresult⟩ := bind_eq_ok.mp h
  cases refusal with
  | some fault => cases hresult
  | none => rfl

/-- No directory of the package at `dir` refuses to be listed. -/
def FileNode.Listed (dir : String) (node : FileNode) : Prop :=
  ∀ below refusal, Step.list below refusal ∈ node.steps dir → refusal = none

namespace FileTree

variable {t : FileTree} {path : String} {names : List String} {node : FileNode}

/-- A package that is loaded has one unit for each of its documents, and all its directories were
listed. -/
theorem loadPackage_eq_ok (hcanonical : t.canonical? path = some names)
    (hnode : t.node? names = some node) {target : ScanTarget}
    (h : t.loadPackage path = .ok target) :
    node.isPackageAt path = true ∧ node.Listed path ∧
      ∃ units, target = .ofPackage ⟨lastName names⟩ units ∧
        List.Forall₂ (fun d u => d.load path (absolutePath names) ⟨lastName names⟩ = .ok u)
          (node.contents path) units := by
  by_cases hpackage : node.isPackageAt path = true
  · rw [loadPackage_of_isPackageAt hcanonical hnode hpackage] at h
    obtain ⟨-, -, h⟩ := bind_eq_ok.mp h
    obtain ⟨units, hunits, rfl⟩ := map_eq_ok.mp h
    obtain ⟨results, hresults, rfl⟩ := map_eq_ok.mp hunits
    have hall := mapM_eq_ok_iff.mp hresults
    refine ⟨hpackage, fun below refusal hlist => ?_, _, rfl, Step.forall₂_document hall⟩
    obtain ⟨result, -, hrun⟩ := exists_of_mem_left hall hlist
    exact Step.refusal_of_run hrun
  · rw [loadPackage_of_not_isPackageAt hcanonical hnode hpackage] at h
    cases h

/-- The modules of a package are those that the steps of a walk add, up to the first that fails. -/
theorem loadPackage_walks (t : FileTree) (path : String) (hwf : t.root.WellFormed) :
    (t.lookup? path = none → t.loadPackage path = .error (.fileNotFound path)) ∧
    ∀ names node, t.canonical? path = some names → t.node? names = some node →
      ((∀ content, ¬ node.HoldsAt path [] packageDocument content) →
        t.loadPackage path = .error (.notPackage path)) ∧
      ∀ content, node.HoldsAt path [] packageDocument content →
        (t.isNamed path = false →
          t.loadPackage path = .error (.unreadable path .nameTooLong)) ∧
        (t.isNamed path = true →
          ∃ steps : List Step, steps.Nodup ∧ steps.Pairwise Step.Precedes ∧
            (∀ d, .load d ∈ steps ↔ node.Contains path d) ∧
            (∀ below refusal, .list below refusal ∈ steps ↔ node.Lists path below refusal) ∧
            (∀ results, List.Forall₂ (fun s r =>
                s.run path (absolutePath names) ⟨lastName names⟩ = .ok r) steps results →
              t.loadPackage path = .ok (.ofPackage ⟨lastName names⟩ results.reduceOption)) ∧
            ∀ before s after fault, steps = before ++ s :: after →
              (∀ b ∈ before, ∃ r, b.run path (absolutePath names) ⟨lastName names⟩ = .ok r) →
              s.run path (absolutePath names) ⟨lastName names⟩ = .error fault →
              t.loadPackage path = .error fault) := by
  refine ⟨fun hlookup => ?_, fun names node hcanonical hnode => ⟨fun hnone => ?_, ?_⟩⟩
  · rw [loadPackage]
    rw [lookup?] at hlookup
    cases hcanonical : t.canonical? path with
    | none => rfl
    | some names =>
      rw [hcanonical, Option.bind_some] at hlookup
      simp [hlookup]
  · refine loadPackage_of_not_isPackageAt hcanonical hnode fun hpackage => ?_
    obtain ⟨content, hcontent⟩ := FileNode.isPackageAt_iff_holdsAt.mp hpackage
    exact hnone content hcontent
  · intro content hcontent
    have hpackage := FileNode.isPackageAt_iff_holdsAt.mpr ⟨content, hcontent⟩
    have hload := loadPackage_of_isPackageAt hcanonical hnode hpackage
    constructor
    · intro hnamed
      rw [hload, checkNamed_of_not_isNamed hnamed]
      rfl
    · intro hnamed
      have hwf_node : node.WellFormed := (hwf.along hnode).2
      rw [checkNamed_of_isNamed hnamed] at hload
      refine ⟨node.steps path, FileNode.nodup_steps hwf_node, FileNode.pairwise_steps hwf_node,
        fun d => FileNode.mem_steps_iff hwf_node, fun below refusal =>
        FileNode.mem_steps_iff hwf_node, fun results hresults => ?_, ?_⟩
      · rw [hload, Step.runAll, mapM_eq_ok_iff.mpr hresults]
        rfl
      · intro before s after fault hsteps hbefore hfault
        rw [hload, Step.runAll, hsteps, mapM_eq_error hbefore hfault]
        rfl

/-- A document without statements. -/
def emptyDocument : FileNode :=
  .file "[]".toUTF8

def subPackage : List (String × FileNode) :=
  [("__init__.json", emptyDocument), ("m.json", emptyDocument)]

/-- A package with a sub-package, seen from the directory that holds it. -/
def nestedPackages : FileTree where
  root := .directory [("work", .directory
    [("pkg", .directory [("__init__.json", emptyDocument), ("sub", .directory subPackage)])])]
  here := ["work"]

theorem wellFormed_nestedPackages : nestedPackages.root.WellFormed := by
  have hdocument : emptyDocument.WellFormed := .stored _
  have hsub : (FileNode.directory subPackage).WellFormed :=
    .directory (by decide) (by decide) (by simp [subPackage, hdocument])
  have hpackage : (FileNode.directory
      [("__init__.json", emptyDocument), ("sub", .directory subPackage)]).WellFormed :=
    .directory (by decide) (by decide) (by simp [hdocument, hsub])
  exact .directory (by decide) (by decide) (by
    simpa using .directory (by decide) (by decide) (by simpa using hpackage))

/-- A package, a directory that is none and a path to nowhere. -/
theorem loadPackage_walks_nested :
    nestedPackages.root.WellFormed ∧
      nestedPackages.loadPackage "pkg/no" = .error (.fileNotFound "pkg/no") ∧
      nestedPackages.loadPackage "pkg/.." = .error (.notPackage "pkg/..") ∧
      ∃ node, nestedPackages.node? ["work", "pkg"] = some node ∧
        ∃ steps : List Step, steps.Nodup ∧ steps.Pairwise Step.Precedes ∧
          (∀ d, .load d ∈ steps ↔ node.Contains "./pkg" d) ∧
          (∀ below refusal, .list below refusal ∈ steps ↔ node.Lists "./pkg" below refusal) ∧
          ∀ results, List.Forall₂ (fun s r => s.run "./pkg" "/work/pkg" ⟨"pkg"⟩ = .ok r)
              steps results →
            nestedPackages.loadPackage "./pkg" =
              .ok (.ofPackage ⟨"pkg"⟩ results.reduceOption) := by
  have hwalks (path : String) := loadPackage_walks nestedPackages path wellFormed_nestedPackages
  refine ⟨wellFormed_nestedPackages, (hwalks "pkg/no").1 rfl, ?_, _, rfl, ?_⟩
  · refine ((hwalks "pkg/..").2 ["work"] _ (by decide) rfl).1 fun content hholds => ?_
    cases hholds.file
  · obtain ⟨steps, hnodup, hordered, hcontains, hlists, hruns, -⟩ :=
      (((hwalks "./pkg").2 ["work", "pkg"] _ (by decide) rfl).2 _ ⟨by decide, rfl⟩).2 (by decide)
    exact ⟨steps, hnodup, hordered, hcontains, hlists, hruns⟩

/-- A path with slashes at its end. -/
def withSlashes (path : String) (n : Nat) : String :=
  path ++ String.ofList (List.replicate n '/')

theorem utf8ByteSize_withSlashes (path : String) (n : Nat) :
    (withSlashes path n).utf8ByteSize = path.utf8ByteSize + n := by
  have hslashes : (String.ofList (List.replicate n '/')).utf8ByteSize = n := by
    induction n with
    | zero => rfl
    | succ n ih =>
      rw [List.replicate_succ, String.ofList_cons, String.utf8ByteSize_append, ih,
        String.utf8ByteSize_singleton, show '/'.utf8Size = 1 from rfl, Nat.add_comm]
  rw [withSlashes, String.utf8ByteSize_append, hslashes]

theorem parts_withSlashes {name : String} (h : '/' ∉ name.toList) (n : Nat) :
    parts (withSlashes name n) = name :: List.replicate n "" := by
  have hslashes (n : Nat) : Separated.split '/' (List.replicate n '/') =
      List.replicate (n + 1) [] := by
    induction n with
    | zero => rfl
    | succ n ih =>
      rw [List.replicate_succ, Separated.split, if_pos rfl, ih]
      rfl
  cases n with
  | zero => simp [parts, withSlashes, Separated.split_of_notMem h]
  | succ n =>
    rw [parts, withSlashes, String.toList_append, String.toList_ofList, List.replicate_succ,
      Separated.split_append h, hslashes]
    simp

/-- Slashes at the end of a path lead nowhere else. -/
theorem walk?_replicate {es : List (String × FileNode)} {refusal : Option AccessFault}
    (h : t.node? names = some (.directory es refusal)) (n : Nat) :
    t.walk? names (List.replicate n "") = some names := by
  induction n with
  | zero => rfl
  | succ n ih =>
    rw [List.replicate_succ, walk?, h]
    simp [ih]

theorem walk?_withSlashes {name : String} {es : List (String × FileNode)}
    {refusal : Option AccessFault} (hname : IsName name)
    (h : t.node? (names ++ [name]) = some (.directory es refusal)) (n : Nat) :
    t.walk? names (parts (withSlashes name n)) = some (names ++ [name]) := by
  obtain ⟨_, _, next, hes, hnext, -⟩ := node?_cons_some h
  rw [parts_withSlashes hname.slash_notMem, walk?, hes]
  simp only [hname.ne_empty, hname.ne_dot, hname.ne_dots, or_self, if_false, Table.contains, hnext,
    Option.isSome_some, if_true]
  exact walk?_replicate h n

/-- A directory is no package for those who reach it by a path that leaves no room for the name of
its document. -/
theorem isPackageAt_of_long {dir : String} (h : pathLimit ≤ dir.utf8ByteSize + 13)
    (node : FileNode) : node.isPackageAt dir = false := by
  have hdocument : packageDocument.utf8ByteSize = 13 := rfl
  have hlong : dir.utf8ByteSize + 13 ≤ (joinPath dir packageDocument).utf8ByteSize := by
    unfold joinPath
    split <;> simp [String.utf8ByteSize_append, hdocument]
  have hlimit : withinLimit (joinPath dir packageDocument) = false := by
    rw [withinLimit, decide_eq_false_iff_not]
    omega
  rw [FileNode.isPackageAt, hlimit, Bool.false_and]

/-- A directory with the document of a package is no package if the path that leads to the document
is too long. -/
theorem loadPackage_manySlashes :
    ∃ es, nestedPackages.lookup? (withSlashes "pkg" 4085) = some (.directory es) ∧
      Table.find? es packageDocument = some emptyDocument ∧
      nestedPackages.loadPackage (withSlashes "pkg" 4085) =
        .error (.notPackage (withSlashes "pkg" 4085)) := by
  have hsize : (withSlashes "pkg" 4085).utf8ByteSize = 4088 := utf8ByteSize_withSlashes "pkg" 4085
  have hnode : nestedPackages.node? ["work", "pkg"] =
    some (.directory [("__init__.json", emptyDocument), ("sub", .directory subPackage)]) := rfl
  have hcanonical : nestedPackages.canonical? (withSlashes "pkg" 4085) = some ["work", "pkg"] := by
    have hne : withSlashes "pkg" 4085 ≠ "" := append_ne_empty (by decide) _
    have hwithin : withinLimit (withSlashes "pkg" 4085) = true := by
      rw [withinLimit, hsize]
      rfl
    have hstart : nestedPackages.start (withSlashes "pkg" 4085) = ["work"] :=
      start_append (by decide) _
    rw [canonical?, if_pos ⟨hne, hwithin⟩, hstart]
    exact walk?_withSlashes (by decide) hnode 4085
  refine ⟨[("__init__.json", emptyDocument), ("sub", .directory subPackage)], ?_, rfl, ?_⟩
  · rw [lookup?, hcanonical, Option.bind_some, hnode]
  · apply loadPackage_of_not_isPackageAt hcanonical hnode
    rw [isPackageAt_of_long (by rw [hsize]; decide)]
    decide

end FileTree

end CallSchema
