import CallSchema.Discovery
import CallSchema.Proofs.Paths
import CallSchema.Proofs.Results
import CallSchema.Proofs.Tables

/-! # Source files

What a document is loaded as depends on its place and content, and not on the path that leads there.
A directory is a package for those who reach the document of the package through it.
-/

namespace CallSchema

open FileTree

theorem sortByName_perm {α : Type} (xs : List (String × α)) : (sortByName xs).Perm xs :=
  List.mergeSort_perm xs _

/-- Sorting looks at the names only. -/
theorem sortByName_map {α β : Type} (f : String × α → β) (xs : List (String × α)) :
    sortByName (xs.map fun x => (x.1, f x)) = (sortByName xs).map fun x => (x.1, f x) := by
  unfold sortByName
  rw [List.map_mergeSort]
  exact fun _ _ _ _ => rfl

/-- Induction on nodes, the entries of a directory being available as such. -/
@[elab_as_elim]
theorem FileNode.induct {motive : FileNode → Prop} (stored : ∀ content, motive (.stored content))
    (directory : ∀ entries refusal, (∀ entry ∈ entries, motive entry.2) →
      motive (.directory entries refusal)) : ∀ node, motive node := by
  intro node
  refine @FileNode.rec motive (fun entries => ∀ entry ∈ entries, motive entry.2)
    (fun entry => motive entry.2) stored (fun entries refusal h => directory entries refusal h)
    ?_ ?_ (fun _ _ h => h) node
  · intro entry hentry
    exact absurd hentry List.not_mem_nil
  · intro head tail hhead htail entry hentry
    rcases List.mem_cons.mp hentry with rfl | hentry
    · exact hhead
    · exact htail entry hentry

/-- The path matters only for what cannot be read. -/
theorem SyntaxTree.ofFile_of_ok {path : String} {content : FileContent} {tree : SyntaxTree}
    (h : ofFile path content = .ok tree) (other : String) : ofFile other content = .ok tree := by
  cases content with
  | error fault => cases h
  | ok bytes =>
    rw [ofFile, ofBytes] at h ⊢
    cases htext : String.fromUTF8? bytes with
    | none => simp [htext] at h
    | some text =>
      cases hparse : parse? text with
      | none => simp [htext, hparse] at h
      | some read => simpa [htext, hparse] using h

namespace SourceFile

variable {dir : String} {package : ModulePath} {name : String} {content : FileContent}

theorem path_ofName : (ofName dir package name content).path = joinPath dir name := by
  unfold ofName
  split <;> rfl

theorem content_ofName : (ofName dir package name content).content = content := by
  unfold ofName
  split <;> rfl

theorem load_ofName : (ofName dir package name content).load =
    (SyntaxTree.ofFile (joinPath dir name) content).map
      (ofName dir package name content).unit := by
  rw [load, path_ofName, content_ofName]

theorem unit_ofName (dir' : String) (content' : FileContent) (tree : SyntaxTree) :
    (ofName dir package name content).unit tree =
      (ofName dir' package name content').unit tree := by
  unfold ofName
  split <;> rfl

theorem load?_eq_some_iff {f : SourceFile} {u : SourceUnit} :
    f.load? = some u ↔ f.load = .ok u := by
  rw [load?]
  split <;> simp_all

theorem filterMap_load? {files : List SourceFile} {units : List SourceUnit}
    (h : List.Forall₂ (fun f u => f.load = .ok u) files units) : files.filterMap load? = units := by
  induction h with
  | nil => rfl
  | cons hload _ ih => simp [load?, hload, ih]

end SourceFile

namespace FileTree

variable {t : FileTree} {dir : String} {names : List String}

theorem isPackageAt_eq {node : FileNode} (h : t.node? names = some node) :
    t.isPackageAt dir names = node.isPackageAt dir := by
  unfold isPackageAt
  rw [h]

theorem isPackageAt_iff : t.isPackageAt dir names = true ↔
    ∃ node, t.node? names = some node ∧ node.isPackageAt dir = true := by
  unfold isPackageAt
  cases t.node? names <;> simp

theorem exists_directory_of_isPackageAt {node : FileNode} (h : node.isPackageAt dir = true) :
    ∃ es refusal, node = .directory es refusal := by
  cases node with
  | stored content =>
    simp [FileNode.isPackageAt, FileNode.isPackage, FileNode.entries, Table.find?] at h
  | directory es refusal => exact ⟨es, refusal, rfl⟩

theorem discover_of_directory {path : String} {es : List (String × FileNode)}
    {refusal : Option AccessFault} (hcanonical : t.canonical? path = some names)
    (hnode : t.node? names = some (.directory es refusal)) :
    t.discover path = t.loadPackage path := by
  have hdirectory : t.isDirectory path = true := by
    simp [isDirectory, lookup?, hcanonical, hnode, FileNode.isFile]
  rw [discover, if_pos hdirectory]

theorem discover_of_stored {path : String} {content : FileContent}
    (hcanonical : t.canonical? path = some names) (hnode : t.node? names = some (.stored content)) :
    t.discover path = SyntaxTree.ofFile path content >>= t.moduleTarget path names := by
  have hlookup : t.lookup? path = some (.stored content) := by
    rw [lookup?, hcanonical]
    exact hnode
  have hdirectory : t.isDirectory path = false := by simp [isDirectory, hlookup, FileNode.isFile]
  rw [discover, hdirectory, loadModule, hlookup, hcanonical]
  rfl

theorem withinLimit_of_isPackageAt {node : FileNode} (h : node.isPackageAt dir = true) :
    withinLimit dir = true :=
  withinLimit_of_joinPath (Bool.and_eq_true_iff.mp h).1

end FileTree

end CallSchema
