import CallSchema.Proofs.NameOrder
import CallSchema.Proofs.Sources

/-! # The walk of a package

A package consists of the documents in its directory and in the sub-directories that are packages
themselves, as far as their paths are within the limit. A walk takes one step for each directory,
which it lists, and one for each document, which it loads. It visits each directory before those
below it; in a directory it loads the document of the package, lists the directory, and then loads
the other documents by name.
-/

namespace CallSchema

open FileTree

instance (name : String) : Decidable (IsName name) :=
  decidable_of_iff (name ≠ "" ∧ name ≠ "." ∧ name ≠ ".." ∧ '/' ∉ name.toList)
    ⟨fun h => ⟨h.1, h.2.1, h.2.2.1, h.2.2.2⟩,
      fun h => ⟨h.ne_empty, h.ne_dot, h.ne_dots, h.slash_notMem⟩⟩

/-- What a file system grants: the entries of a directory have different names, which paths can
spell. -/
inductive FileNode.WellFormed : FileNode → Prop
  | stored (content : FileContent) : WellFormed (.stored content)
  | directory {es : List (String × FileNode)} {refusal : Option AccessFault} :
      (Table.keys es).Nodup → (∀ e ∈ es, IsName e.1) → (∀ e ∈ es, WellFormed e.2) →
      WellFormed (.directory es refusal)

/-- Names that lead to a node are spelled by paths, and the node is well-formed. -/
theorem FileNode.WellFormed.along {node next : FileNode} (h : node.WellFormed)
    {names : List String} (hnext : node.follow? names = some next) :
    (∀ n ∈ names, IsName n) ∧ next.WellFormed := by
  induction names generalizing node with
  | nil =>
    cases hnext
    exact ⟨fun n hn => absurd hn List.not_mem_nil, h⟩
  | cons name rest ih =>
    cases h with
    | stored content => cases hnext
    | @directory es _ _ hnames hall =>
      rw [FileNode.follow?] at hnext
      cases hfind : Table.find? es name with
      | none => simp [hfind] at hnext
      | some sub =>
        rw [hfind] at hnext
        have hentry := Table.mem_of_find? hfind
        obtain ⟨hrest, hwf⟩ := ih (hall _ hentry) hnext
        exact ⟨List.forall_mem_cons.mpr ⟨hnames _ hentry, hrest⟩, hwf⟩

theorem FileNode.WellFormed.nodup_entries {node : FileNode} (h : node.WellFormed) :
    (Table.keys node.entries).Nodup := by
  obtain - | ⟨hnodup, -, -⟩ := h
  · exact List.nodup_nil
  · exact hnodup

/-- The path of a directory below the one at a path. -/
def FileTree.pathBelow (path : String) (below : List String) : String :=
  below.foldl joinPath path

/-- A document below a directory, to which the names of the directories on the way lead. -/
structure Document where
  below : List String
  name : String
  content : FileContent

/-- The document seen from the directory above. -/
def Document.under (name : String) (d : Document) : Document :=
  { d with below := name :: d.below }

/-- What a walk does in a directory. -/
inductive Stage where
  | package
  | listing
  | module (name : String)

/-- The order in a directory. -/
inductive Stage.Before : Stage → Stage → Prop
  | listing : Before .package .listing
  | package {b : String} : Before .package (.module b)
  | module {b : String} : Before .listing (.module b)
  | name {a b : String} : nameBytes a < nameBytes b → Before (.module a) (.module b)

/-- A step of a walk below a directory. -/
inductive Step where
  | load (d : Document)
  | list (below : List String) (refusal : Option AccessFault)

namespace Step

def below : Step → List String
  | .load d => d.below
  | .list below _ => below

def stage : Step → Stage
  | .load d => if d.name = packageDocument then .package else .module d.name
  | .list .. => .listing

/-- The step seen from the directory above. -/
def under (name : String) : Step → Step
  | .load d => .load (d.under name)
  | .list below refusal => .list (name :: below) refusal

def document? : Step → Option Document
  | .load d => some d
  | .list .. => none

/-- The order of a walk. -/
inductive Before : List String → Stage → List String → Stage → Prop
  | here {a b : Stage} : a.Before b → Before [] a [] b
  | outside {a b : Stage} {c : String} {cs : List String} : Before [] a (c :: cs) b
  | directory {a b : Stage} {c d : String} {cs ds : List String} : nameBytes c < nameBytes d →
      Before (c :: cs) a (d :: ds) b
  | inside {a b : Stage} {c : String} {cs ds : List String} : Before cs a ds b →
      Before (c :: cs) a (c :: ds) b

theorem Before.irrefl {below : List String} {stage : Stage} : ¬ Before below stage below stage := by
  induction below with
  | nil =>
    rintro (hstage | _)
    cases hstage with
    | name hlt => exact absurd hlt (List.lt_irrefl _)
  | cons first rest ih =>
    rintro (_ | _ | hlt | hrest)
    · exact absurd hlt (List.lt_irrefl _)
    · exact ih hrest

def Precedes (s s' : Step) : Prop :=
  Before s.below s.stage s'.below s'.stage

theorem precedes_under {name : String} {s s' : Step} (h : s.Precedes s') :
    (s.under name).Precedes (s'.under name) := by
  cases s <;> cases s' <;> exact .inside h

/-- Different documents of one directory have different names. -/
theorem Precedes.name_ne {d e : Document} (h : (Step.load d).Precedes (.load e))
    (hbelow : d.below = e.below) : d.name ≠ e.name := by
  intro hname
  rw [Precedes, below, below, hbelow, stage, stage, hname] at h
  exact Before.irrefl h

theorem below_under {name : String} (s : Step) : (s.under name).below = name :: s.below := by
  cases s <;> rfl

theorem document?_under {name : String} (s : Step) :
    (s.under name).document? = s.document?.map (Document.under name) := by
  cases s <;> rfl

theorem document?_eq_some_iff {s : Step} {d : Document} : s.document? = some d ↔ s = .load d := by
  cases s <;> simp [document?]

end Step

namespace FileNode

/-- The directory `below` holds the file, and the path through it is within the limit. -/
structure HoldsAt (dir : String) (node : FileNode) (below : List String) (name : String)
    (content : FileContent) : Prop where
  within : withinLimit (joinPath (pathBelow dir below) name) = true
  file : node.follow? (below ++ [name]) = some (.stored content)

/-- All directories on the way to `below` hold the document of a package. -/
def Reaches (dir : String) (node : FileNode) (below : List String) : Prop :=
  ∀ front, front <+: below → front ≠ [] → ∃ content, node.HoldsAt dir front packageDocument content

/-- The document belongs to the package at `dir`: it has the extension of documents, and all
directories on the way hold the document of a package. -/
structure Contains (dir : String) (node : FileNode) (d : Document) : Prop where
  packages : node.Reaches dir d.below
  extension : hasExtension "json" d.name = true
  holds : node.HoldsAt dir d.below d.name d.content

/-- The directory `below` belongs to the package at `dir`, and this is the refusal to list it. -/
structure Lists (dir : String) (node : FileNode) (below : List String)
    (refusal : Option AccessFault) : Prop where
  packages : node.Reaches dir below
  directory : ∃ es, node.follow? below = some (.directory es refusal)

/-- What belongs to the package at `dir` has its step in a walk. -/
def Takes (dir : String) (node : FileNode) : Step → Prop
  | .load d => node.Contains dir d
  | .list below refusal => node.Lists dir below refusal

/-- Documents in the directory of the package itself. -/
def loads (docs : List (String × FileContent)) : List Step :=
  docs.map fun p => .load ⟨[], p.1, p.2⟩

mutual

/-- The steps of a walk. -/
def steps (dir : String) : FileNode → List Step
  | .stored _ => []
  | .directory es refusal =>
    let docs := documents dir es
    loads (docs.filter fun d => isPackageStem d.1) ++ .list [] refusal ::
      (loads (sortByName (docs.filter fun d => !isPackageStem d.1)) ++
        (sortByName (subSteps dir es)).flatMap Prod.snd)

def subSteps (dir : String) : List (String × FileNode) → List (String × List Step)
  | [] => []
  | (name, node) :: rest =>
    if node.isPackageAt (joinPath dir name) then
      (name, (steps (joinPath dir name) node).map (Step.under name)) :: subSteps dir rest
    else subSteps dir rest

end

/-- The documents of a package in the order of a walk. -/
def contents (dir : String) (node : FileNode) : List Document :=
  (steps dir node).filterMap Step.document?

/-- The entries that are packages. -/
def subPackages (dir : String) (es : List (String × FileNode)) : List (String × FileNode) :=
  es.filter fun e => e.2.isPackageAt (joinPath dir e.1)

variable {dir : String} {node : FileNode} {es : List (String × FileNode)}
  {refusal : Option AccessFault} {d : Document} {s : Step}

theorem subSteps_eq (dir : String) (es : List (String × FileNode)) :
    subSteps dir es = (subPackages dir es).map fun e =>
      (e.1, (steps (joinPath dir e.1) e.2).map (Step.under e.1)) := by
  induction es with
  | nil => rfl
  | cons e rest ih =>
    rw [subSteps]
    split
    · rename_i hpackage
      simp [subPackages, hpackage, ih]
    · rename_i hpackage
      simp [subPackages, hpackage, ih]

/-- The steps below the directory itself. -/
def stepsBelow (dir : String) (es : List (String × FileNode)) : List Step :=
  (sortByName (subPackages dir es)).flatMap fun e =>
    (steps (joinPath dir e.1) e.2).map (Step.under e.1)

theorem steps_directory (dir : String) (es : List (String × FileNode))
    (refusal : Option AccessFault) :
    steps dir (.directory es refusal) =
      loads ((documents dir es).filter fun d => isPackageStem d.1) ++ .list [] refusal ::
        (loads (sortByName ((documents dir es).filter fun d => !isPackageStem d.1)) ++
          stepsBelow dir es) := by
  rw [steps, subSteps_eq, sortByName_map, List.flatMap_map]
  rfl

/-- The document of the package first, the others by name. -/
def packageOrder (docs : List (String × FileContent)) : List (String × FileContent) :=
  (docs.filter fun d => isPackageStem d.1) ++ sortByName (docs.filter fun d => !isPackageStem d.1)

theorem packageOrder_perm (docs : List (String × FileContent)) : (packageOrder docs).Perm docs :=
  ((sortByName_perm _).append_left _).trans (List.filter_append_perm _ docs)

theorem filterMap_loads (docs : List (String × FileContent)) :
    (loads docs).filterMap Step.document? = docs.map fun p => ⟨[], p.1, p.2⟩ := by
  rw [loads, List.filterMap_map, ← List.filterMap_eq_map]
  rfl

theorem contents_directory (dir : String) (es : List (String × FileNode))
    (refusal : Option AccessFault) :
    contents dir (.directory es refusal) =
      ((packageOrder (documents dir es)).map fun p => ⟨[], p.1, p.2⟩) ++
        (sortByName (subPackages dir es)).flatMap fun e =>
          (contents (joinPath dir e.1) e.2).map (Document.under e.1) := by
  have hbelow : (stepsBelow dir es).filterMap Step.document? =
      (sortByName (subPackages dir es)).flatMap fun e =>
        (contents (joinPath dir e.1) e.2).map (Document.under e.1) := by
    rw [stepsBelow, List.filterMap_flatMap]
    refine List.flatMap_congr fun e _ => ?_
    rw [List.filterMap_map, contents, List.map_filterMap]
    exact List.filterMap_congr fun s _ => s.document?_under
  rw [contents, steps_directory, List.filterMap_append, List.filterMap_cons, Step.document?,
    List.filterMap_append, filterMap_loads, filterMap_loads, hbelow, ← List.append_assoc,
    ← List.map_append]
  rfl

theorem mem_documents {name : String} {content : FileContent} :
    (name, content) ∈ documents dir es ↔ (name, .stored content) ∈ es ∧
      hasExtension "json" name = true ∧ withinLimit (joinPath dir name) = true := by
  unfold documents
  rw [List.mem_filterMap]
  constructor
  · rintro ⟨⟨other, entry⟩, hentry, hsome⟩
    cases entry with
    | directory _ _ => cases hsome
    | stored _ =>
      simp only [Option.ite_none_right_eq_some, Bool.and_eq_true, Option.some.injEq,
        Prod.mk.injEq] at hsome
      obtain ⟨⟨hext, hlimit⟩, rfl, rfl⟩ := hsome
      exact ⟨hentry, hext, hlimit⟩
  · rintro ⟨hentry, hext, hlimit⟩
    exact ⟨(name, .stored content), hentry, by simp [hext, hlimit]⟩

theorem mem_loads {docs : List (String × FileContent)} :
    s ∈ loads docs ↔ ∃ name content, (name, content) ∈ docs ∧ s = .load ⟨[], name, content⟩ := by
  simp [loads, eq_comm]

theorem mem_stepsBelow : s ∈ stepsBelow dir es ↔
    ∃ name sub, (name, sub) ∈ es ∧ sub.isPackageAt (joinPath dir name) = true ∧
      ∃ s' ∈ steps (joinPath dir name) sub, s = s'.under name := by
  simp only [stepsBelow, List.mem_flatMap, List.mem_map, Prod.exists, (sortByName_perm _).mem_iff,
    subPackages, List.mem_filter, eq_comm, and_assoc]

theorem mem_steps_directory : s ∈ steps dir (.directory es refusal) ↔
    (∃ name content, (name, content) ∈ documents dir es ∧ s = .load ⟨[], name, content⟩) ∨
      s = .list [] refusal ∨ s ∈ stepsBelow dir es := by
  have hloads : s ∈ loads (documents dir es) ↔
      s ∈ loads ((documents dir es).filter fun d => isPackageStem d.1) ∨
        s ∈ loads (sortByName ((documents dir es).filter fun d => !isPackageStem d.1)) := by
    rw [← List.mem_append, loads, loads, loads, ← List.map_append]
    exact ((packageOrder_perm _).map _).mem_iff.symm
  rw [steps_directory, List.mem_append, List.mem_cons, List.mem_append, ← mem_loads, hloads]
  tauto

theorem holdsAt_nil {name : String} {content : FileContent} :
    node.HoldsAt dir [] name content ↔
      withinLimit (joinPath dir name) = true ∧
        Table.find? node.entries name = some (.stored content) := by
  have hfollow : node.follow? [name] = Table.find? node.entries name := by
    cases node with
    | stored _ => rfl
    | directory es _ =>
      rw [follow?, entries]
      cases Table.find? es name <;> rfl
  constructor
  · rintro ⟨hlimit, hfile⟩
    exact ⟨hlimit, hfollow.symm.trans hfile⟩
  · rintro ⟨hlimit, hfile⟩
    exact ⟨hlimit, hfollow.trans hfile⟩

theorem follow?_cons {name : String} {sub : FileNode} (h : Table.find? es name = some sub)
    (below : List String) :
    follow? (name :: below) (.directory es refusal) = follow? below sub := by
  rw [follow?, h]

/-- A directory holds below an entry what the entry holds. -/
theorem holdsAt_cons {name file : String} {sub : FileNode} {below : List String}
    {content : FileContent} (h : Table.find? es name = some sub) :
    HoldsAt dir (.directory es refusal) (name :: below) file content ↔
      HoldsAt (joinPath dir name) sub below file content := by
  have hfollow := @follow?_cons es refusal name sub h (below ++ [file])
  constructor
  · rintro ⟨hlimit, hfile⟩
    exact ⟨hlimit, hfollow.symm.trans hfile⟩
  · rintro ⟨hlimit, hfile⟩
    exact ⟨hlimit, hfollow.trans hfile⟩

/-- A directory is a package if it holds the document of one. -/
theorem isPackageAt_iff_holdsAt : node.isPackageAt dir = true ↔
    ∃ content, node.HoldsAt dir [] packageDocument content := by
  simp only [isPackageAt, isPackage, Bool.and_eq_true, holdsAt_nil, exists_and_left]
  refine and_congr_right fun _ => ?_
  cases Table.find? node.entries packageDocument with
  | none => simp
  | some entry => cases entry <;> simp [isFile]

theorem exists_sub_of_holdsAt {name file : String} {below : List String} {content : FileContent}
    (h : HoldsAt dir (.directory es refusal) (name :: below) file content) :
    ∃ sub, Table.find? es name = some sub := by
  have hfile := h.file
  rw [List.cons_append, follow?] at hfile
  cases hfind : Table.find? es name with
  | none => simp [hfind] at hfile
  | some sub => exact ⟨sub, rfl⟩

theorem reaches_nil : node.Reaches dir [] := fun _ hfront hne =>
  absurd (List.prefix_nil.mp hfront) hne

/-- The way leads through the entry, which has to be a package. -/
theorem reaches_cons {name : String} {sub : FileNode} {below : List String}
    (hfind : Table.find? es name = some sub) :
    Reaches dir (.directory es refusal) (name :: below) ↔
      sub.isPackageAt (joinPath dir name) = true ∧ sub.Reaches (joinPath dir name) below := by
  constructor
  · intro h
    have hholds (front : List String) (hfront : front <+: below) :
        ∃ content, sub.HoldsAt (joinPath dir name) front packageDocument content := by
      obtain ⟨content, hcontent⟩ := h (name :: front) ((List.prefix_cons_inj name).mpr hfront)
        (List.cons_ne_nil name front)
      exact ⟨content, (holdsAt_cons hfind).mp hcontent⟩
    exact ⟨isPackageAt_iff_holdsAt.mpr (hholds [] List.nil_prefix), fun front hfront _ =>
      hholds front hfront⟩
  · rintro ⟨hpackage, h⟩ front hfront hne
    obtain rfl | ⟨rest, rfl, hrest⟩ := List.prefix_cons_iff.mp hfront
    · exact absurd rfl hne
    · have hholds : ∃ content, sub.HoldsAt (joinPath dir name) rest packageDocument content := by
        by_cases hnil : rest = []
        · rw [hnil]
          exact isPackageAt_iff_holdsAt.mp hpackage
        · exact h rest hrest hnil
      obtain ⟨content, hcontent⟩ := hholds
      exact ⟨content, (holdsAt_cons hfind).mpr hcontent⟩

/-- What belongs to a package below an entry belongs to the entry, which is a package. -/
theorem takes_under {name : String} {sub : FileNode} (hfind : Table.find? es name = some sub) :
    Takes dir (.directory es refusal) (s.under name) ↔
      sub.isPackageAt (joinPath dir name) = true ∧ sub.Takes (joinPath dir name) s := by
  cases s with
  | load d =>
    constructor
    · rintro ⟨hpackages, hext, hholds⟩
      obtain ⟨hpackage, hreaches⟩ := (reaches_cons hfind).mp hpackages
      exact ⟨hpackage, hreaches, hext, (holdsAt_cons hfind).mp hholds⟩
    · rintro ⟨hpackage, hreaches, hext, hholds⟩
      exact ⟨(reaches_cons hfind).mpr ⟨hpackage, hreaches⟩, hext, (holdsAt_cons hfind).mpr hholds⟩
  | list below other =>
    have hfollow := @follow?_cons es refusal name sub hfind below
    constructor
    · rintro ⟨hpackages, hdirectory⟩
      obtain ⟨hpackage, hreaches⟩ := (reaches_cons hfind).mp hpackages
      exact ⟨hpackage, hreaches, hfollow ▸ hdirectory⟩
    · rintro ⟨hpackage, hreaches, hdirectory⟩
      exact ⟨(reaches_cons hfind).mpr ⟨hpackage, hreaches⟩, hfollow ▸ hdirectory⟩

/-- What belongs to a package below its directory belongs to an entry. -/
theorem exists_under_of_takes (h : Takes dir (.directory es refusal) s) (hne : s.below ≠ []) :
    ∃ (name : String) (sub : FileNode) (s' : Step), Table.find? es name = some sub ∧
      s = s'.under name := by
  have hreaches : Reaches dir (.directory es refusal) s.below := by
    cases s with
    | load d => exact h.packages
    | list below _ => exact h.packages
  obtain ⟨first, rest, hbelow⟩ := List.exists_cons_of_ne_nil hne
  rw [hbelow] at hreaches
  obtain ⟨content, hholds⟩ := hreaches [first] (List.prefix_append [first] rest)
    (List.cons_ne_nil first [])
  obtain ⟨sub, hfind⟩ := exists_sub_of_holdsAt hholds
  cases s with
  | load d =>
    obtain ⟨_, name, content⟩ := d
    cases hbelow
    exact ⟨first, sub, .load ⟨rest, name, content⟩, hfind, rfl⟩
  | list below other =>
    cases hbelow
    exact ⟨first, sub, .list rest other, hfind, rfl⟩

/-- In the directory itself there are documents and the listing of the directory. -/
theorem takes_here (hnodup : (Table.keys es).Nodup) (hbelow : s.below = []) :
    Takes dir (.directory es refusal) s ↔
      (∃ name content, (name, content) ∈ documents dir es ∧ s = .load ⟨[], name, content⟩) ∨
        s = .list [] refusal := by
  cases s with
  | load d =>
    obtain ⟨below, name, content⟩ := d
    cases hbelow
    constructor
    · rintro ⟨-, hext, hholds⟩
      obtain ⟨hlimit, hfind⟩ := holdsAt_nil.mp hholds
      exact .inl ⟨name, content, mem_documents.mpr ⟨Table.mem_of_find? hfind, hext, hlimit⟩, rfl⟩
    · rintro (⟨_, _, hdocument, heq⟩ | heq)
      · cases heq
        obtain ⟨hentry, hext, hlimit⟩ := mem_documents.mp hdocument
        exact ⟨reaches_nil, hext, holdsAt_nil.mpr ⟨hlimit, Table.find?_of_mem hnodup hentry⟩⟩
      · cases heq
  | list below other =>
    cases hbelow
    constructor
    · rintro ⟨-, es', hnode⟩
      cases hnode
      exact .inr rfl
    · rintro (⟨_, _, -, heq⟩ | heq)
      · cases heq
      · cases heq
        exact ⟨reaches_nil, es, rfl⟩

/-- A walk has a step for what belongs to the package and for nothing else. -/
theorem mem_steps_iff (hwf : node.WellFormed) : s ∈ steps dir node ↔ node.Takes dir s := by
  induction node using induct generalizing dir s with
  | stored content =>
    constructor
    · intro hmem
      cases hmem
    · intro h
      cases s with
      | load d =>
        have hfile := h.holds.file
        cases hbelow : d.below <;> simp [hbelow, follow?] at hfile
      | list below refusal =>
        obtain ⟨es, hnode⟩ := h.directory
        cases below <;> simp [follow?] at hnode
  | directory es refusal ih =>
    obtain - | ⟨hnodup, -, hall⟩ := hwf
    rw [mem_steps_directory, mem_stepsBelow]
    by_cases hbelow : s.below = []
    · rw [takes_here hnodup hbelow, ← or_assoc, or_iff_left_of_imp]
      rintro ⟨name, sub, -, -, s', -, rfl⟩
      rw [Step.below_under] at hbelow
      cases hbelow
    · constructor
      · rintro (⟨name, content, -, rfl⟩ | rfl | ⟨name, sub, hentry, hsub, s', hs', rfl⟩)
        · exact absurd rfl hbelow
        · exact absurd rfl hbelow
        · rw [takes_under (Table.find?_of_mem hnodup hentry)]
          exact ⟨hsub, (ih _ hentry (hall _ hentry)).mp hs'⟩
      · intro h
        obtain ⟨name, sub, s', hfind, rfl⟩ := exists_under_of_takes h hbelow
        obtain ⟨hsub, htakes⟩ := (takes_under hfind).mp h
        have hentry := Table.mem_of_find? hfind
        exact .inr (.inr ⟨name, sub, hentry, hsub, s',
          (ih _ hentry (hall _ hentry)).mpr htakes, rfl⟩)

/-- A walk meets the documents of the package and no others. -/
theorem mem_contents_iff (hwf : node.WellFormed) : d ∈ contents dir node ↔ node.Contains dir d := by
  have hload : d ∈ contents dir node ↔ .load d ∈ steps dir node := by
    simp [contents, Step.document?_eq_some_iff]
  rw [hload, mem_steps_iff hwf]
  rfl

theorem isPackageStem_iff {name : String} (h : hasExtension "json" name = true) :
    isPackageStem name = true ↔ name = packageDocument := by
  constructor
  · intro hstem
    rw [hasExtension, beq_iff_eq, beq_iff_eq.mp hstem] at h
    exact h
  · rintro rfl
    rfl

theorem eq_of_stem_eq {a b : String} (ha : hasExtension "json" a = true)
    (hb : hasExtension "json" b = true) (h : stem a = stem b) : a = b := by
  rw [beq_iff_eq.mp ha, beq_iff_eq.mp hb, h]

theorem documents_sublist : ((documents dir es).map Prod.fst).Sublist (Table.keys es) := by
  induction es with
  | nil => exact .slnil
  | cons e es ih =>
    obtain ⟨name, entry⟩ := e
    cases entry with
    | directory entries refusal => exact ih.cons name
    | stored content =>
      unfold documents at ih ⊢
      simp only [List.filterMap_cons]
      split
      · exact ih.cons name
      · rename_i p hp
        obtain ⟨-, hp⟩ := Option.ite_none_right_eq_some.mp hp
        cases hp
        exact ih.cons_cons name

section Order

variable {docs : List (String × FileContent)} (hext : ∀ p ∈ docs, hasExtension "json" p.1 = true)

include hext

theorem stage_of_mem_package (h : s ∈ loads (docs.filter fun d => isPackageStem d.1)) :
    s.below = [] ∧ s.stage = .package := by
  obtain ⟨name, content, hmem, rfl⟩ := mem_loads.mp h
  obtain ⟨hmem, hstem⟩ := List.mem_filter.mp hmem
  exact ⟨rfl, if_pos ((isPackageStem_iff (hext _ hmem)).mp hstem)⟩

theorem stage_of_mem_others
    (h : s ∈ loads (sortByName (docs.filter fun d => !isPackageStem d.1))) :
    ∃ name, s.below = [] ∧ s.stage = .module name := by
  obtain ⟨name, content, hmem, rfl⟩ := mem_loads.mp h
  obtain ⟨hmem, hstem⟩ := List.mem_filter.mp ((sortByName_perm _).mem_iff.mp hmem)
  refine ⟨name, rfl, if_neg fun hname => ?_⟩
  simp [(isPackageStem_iff (hext _ hmem)).mpr hname] at hstem

theorem pairwise_package (hnodup : (docs.map Prod.fst).Nodup) :
    (loads (docs.filter fun d => isPackageStem d.1)).Pairwise Step.Precedes := by
  refine List.pairwise_map.mpr
    ((List.Pairwise.filter _ (List.pairwise_map.mp hnodup)).imp_of_mem fun hp hq hne => ?_)
  have hname {p : String × FileContent} (hp : p ∈ docs.filter fun d => isPackageStem d.1) :
      p.1 = packageDocument := by
    obtain ⟨hmem, hstem⟩ := List.mem_filter.mp hp
    exact (isPackageStem_iff (hext p hmem)).mp hstem
  exact absurd ((hname hp).trans (hname hq).symm) hne

theorem pairwise_others (hnodup : (docs.map Prod.fst).Nodup) :
    (loads (sortByName (docs.filter fun d => !isPackageStem d.1))).Pairwise Step.Precedes := by
  have hrest : ((docs.filter fun d => !isPackageStem d.1).map Prod.fst).Nodup :=
    hnodup.sublist (List.filter_sublist.map Prod.fst)
  have hother {p : String × FileContent}
      (hp : p ∈ sortByName (docs.filter fun d => !isPackageStem d.1)) :
      p.1 ≠ packageDocument := by
    obtain ⟨hmem, hstem⟩ := List.mem_filter.mp ((sortByName_perm _).mem_iff.mp hp)
    intro hname
    simp [(isPackageStem_iff (hext p hmem)).mpr hname] at hstem
  refine List.pairwise_map.mpr ((pairwise_sortByName hrest).imp_of_mem fun hp hq hlt => .here ?_)
  rw [Step.stage, Step.stage, if_neg (hother hp), if_neg (hother hq)]
  exact .name hlt

end Order

theorem pairwise_stepsBelow (hnodup : (Table.keys es).Nodup)
    (h : ∀ e ∈ es, (steps (joinPath dir e.1) e.2).Pairwise Step.Precedes) :
    (stepsBelow dir es).Pairwise Step.Precedes := by
  have hsub : ((subPackages dir es).map Prod.fst).Nodup :=
    hnodup.sublist (List.filter_sublist.map Prod.fst)
  refine List.pairwise_flatMap.mpr ⟨fun e he => ?_, ?_⟩
  · have hentry := List.mem_of_mem_filter ((sortByName_perm _).mem_iff.mp he)
    exact List.pairwise_map.mpr ((h e hentry).imp Step.precedes_under)
  · refine (pairwise_sortByName hsub).imp fun hlt s hs s' hs' => ?_
    obtain ⟨_, -, rfl⟩ := List.mem_map.mp hs
    obtain ⟨_, -, rfl⟩ := List.mem_map.mp hs'
    rw [Step.Precedes, Step.below_under, Step.below_under]
    exact .directory hlt

/-- The steps are in the order of a walk. -/
theorem pairwise_steps (hwf : node.WellFormed) : (steps dir node).Pairwise Step.Precedes := by
  induction node using induct generalizing dir with
  | stored content => exact List.Pairwise.nil
  | directory es refusal ih =>
    obtain - | ⟨hnodup, -, hall⟩ := hwf
    have hnames : ((documents dir es).map Prod.fst).Nodup := hnodup.sublist documents_sublist
    have hext : ∀ p ∈ documents dir es, hasExtension "json" p.1 = true := fun p hp =>
      (mem_documents.mp hp).2.1
    have hbelow {s s' : Step} (hs : s.below = []) (hs' : s' ∈ stepsBelow dir es) :
        s.Precedes s' := by
      obtain ⟨name, -, -, -, -, -, rfl⟩ := mem_stepsBelow.mp hs'
      rw [Step.Precedes, hs, Step.below_under]
      exact .outside
    rw [steps_directory, List.pairwise_append, List.pairwise_cons, List.pairwise_append]
    refine ⟨pairwise_package hext hnames, ⟨fun s' hs' => ?_, pairwise_others hext hnames,
      pairwise_stepsBelow hnodup fun e he => ih e he (hall e he), fun s hs s' hs' => ?_⟩,
      fun s hs s' hs' => ?_⟩
    · rcases List.mem_append.mp hs' with hs' | hs'
      · obtain ⟨name, hnil, hstage⟩ := stage_of_mem_others hext hs'
        rw [Step.Precedes, hnil, hstage]
        exact .here .module
      · exact hbelow rfl hs'
    · obtain ⟨name, hnil, -⟩ := stage_of_mem_others hext hs
      exact hbelow hnil hs'
    · obtain ⟨hnil, hstage⟩ := stage_of_mem_package hext hs
      rcases List.mem_cons.mp hs' with rfl | hs'
      · rw [Step.Precedes, hnil, hstage]
        exact .here .listing
      · rcases List.mem_append.mp hs' with hs' | hs'
        · obtain ⟨name, hnil', hstage'⟩ := stage_of_mem_others hext hs'
          rw [Step.Precedes, hnil, hstage, hnil', hstage']
          exact .here .package
        · exact hbelow hnil hs'

theorem nodup_steps (hwf : node.WellFormed) : (steps dir node).Nodup := by
  refine List.Pairwise.imp ?_ (pairwise_steps hwf)
  rintro s _ hlt rfl
  exact Step.Before.irrefl hlt

/-- The documents of a package are met in the order of a walk. -/
theorem pairwise_contents (hwf : node.WellFormed) :
    (contents dir node).Pairwise fun d e => (Step.load d).Precedes (.load e) := by
  refine List.Pairwise.filterMap _ (fun s s' hlt d hd e he => ?_) (pairwise_steps hwf)
  rwa [← Step.document?_eq_some_iff.mp hd, ← Step.document?_eq_some_iff.mp he]

end FileNode

end CallSchema
