import Mathlib.Data.List.Induction
import CallSchema.FileTree.Basic

/-! # Paths from the root

A path spells the names on the way. The path from the root along a list of names leads back to these
names, and a name is added to it as it is to every path.
-/

namespace CallSchema

namespace Separated

variable {sep : Char}

theorem notMem_of_mem_split {cs part : List Char} (h : part ∈ split sep cs) : sep ∉ part := by
  induction cs generalizing part with
  | nil => simp_all [split]
  | cons c cs ih =>
    rw [split] at h
    split at h
    · rcases List.mem_cons.mp h with rfl | h
      · exact List.not_mem_nil
      · exact ih h
    · rename_i hc
      cases hs : split sep cs with
      | nil => exact absurd hs (split_ne_nil cs)
      | cons first rest =>
        rw [hs] at h
        rcases List.mem_cons.mp h with rfl | h
        · exact List.not_mem_cons_of_ne_of_not_mem (Ne.symm hc) (ih (hs ▸ List.mem_cons_self))
        · exact ih (hs ▸ List.mem_cons_of_mem first h)

theorem split_append_sep (as bs : List Char) :
    split sep (as ++ sep :: bs) = split sep as ++ split sep bs := by
  induction as with
  | nil => simp [split]
  | cons a as ih =>
    by_cases ha : a = sep
    · simp [split, ha, ih]
    · rw [List.cons_append, split, if_neg ha, ih, split, if_neg ha]
      cases hs : split sep as with
      | nil => exact absurd hs (split_ne_nil as)
      | cons part rest => rfl

theorem join_eq_intercalate (parts : List (List Char)) :
    join sep parts = [sep].intercalate parts := by
  induction parts with
  | nil => rfl
  | cons part rest ih =>
    cases rest with
    | nil => simp [join]
    | cons next rest => rw [join_cons (List.cons_ne_nil next rest), ih]; simp

theorem join_concat {parts : List (List Char)} (h : parts ≠ []) (part : List Char) :
    join sep (parts ++ [part]) = join sep parts ++ sep :: part := by
  induction parts with
  | nil => exact absurd rfl h
  | cons first rest ih =>
    cases rest with
    | nil => rfl
    | cons next rest =>
      have hne := List.cons_ne_nil next rest
      rw [List.cons_append, join_cons (List.append_ne_nil_of_left_ne_nil hne _), ih hne,
        join_cons hne, List.append_assoc, List.cons_append]

end Separated

/-- The node at the end of names is found in steps. -/
theorem FileNode.follow?_append (front rest : List String) (node : FileNode) :
    node.follow? (front ++ rest) = (node.follow? front).bind (follow? rest) := by
  induction front generalizing node with
  | nil => rfl
  | cons name front ih =>
    cases node with
    | stored content => rfl
    | directory es refusal =>
      simp only [List.cons_append, follow?]
      cases Table.find? es name with
      | none => rfl
      | some next => exact ih next

namespace FileTree

/-- A name that a path can spell. -/
structure IsName (name : String) : Prop where
  ne_empty : name ≠ ""
  ne_dot : name ≠ "."
  ne_dots : name ≠ ".."
  slash_notMem : '/' ∉ name.toList

variable {t : FileTree} {names : List String}

theorem node?_cons_some {name : String} {rest : List String} {node : FileNode}
    (h : t.node? (names ++ name :: rest) = some node) :
    ∃ es refusal next, t.node? names = some (.directory es refusal) ∧
      Table.find? es name = some next ∧ next.follow? rest = some node := by
  rw [node?, FileNode.follow?_append] at h
  obtain ⟨mid, hmid, h⟩ := Option.bind_eq_some_iff.mp h
  cases mid with
  | stored content => cases h
  | directory es refusal =>
    rw [FileNode.follow?] at h
    cases hnext : Table.find? es name with
    | none => simp [hnext] at h
    | some next => exact ⟨es, refusal, next, hmid, hnext, by simpa [hnext] using h⟩

theorem toList_absolutePath (names : List String) :
    (absolutePath names).toList = '/' :: Separated.join '/' (names.map String.toList) := by
  rw [absolutePath, String.toList_append, String.toList_intercalate, Separated.join_eq_intercalate]
  rfl

theorem absolutePath_ne_empty (names : List String) : absolutePath names ≠ "" := by
  intro he
  have hlist := congrArg String.toList he
  simp [toList_absolutePath] at hlist

theorem start_absolutePath (t : FileTree) (names : List String) :
    t.start (absolutePath names) = [] := by
  simp [start, toList_absolutePath]

theorem absolutePath_concat (h : names ≠ []) (name : String) :
    absolutePath (names ++ [name]) = absolutePath names ++ "/" ++ name := by
  apply String.toList_injective
  have hmap : names.map String.toList ≠ [] := by simpa using h
  simp [toList_absolutePath, Separated.join_concat hmap]

theorem getLast?_absolutePath (names : List String) {name : String} (h : IsName name) :
    (absolutePath (names ++ [name])).toList.getLast? ≠ some '/' := by
  intro hlast
  have hne : name.toList ≠ [] := by simpa using h.ne_empty
  have hend : ∃ front, (absolutePath (names ++ [name])).toList = front ++ name.toList := by
    cases names with
    | nil => exact ⟨['/'], by simp [toList_absolutePath, Separated.join]⟩
    | cons first rest =>
      exact ⟨(absolutePath (first :: rest) ++ "/").toList, by
        rw [absolutePath_concat (by simp), String.toList_append]⟩
  obtain ⟨front, hfront⟩ := hend
  rw [hfront, List.getLast?_append, List.getLast?_eq_some_getLast hne, Option.some_or,
    Option.some_inj] at hlast
  exact h.slash_notMem (hlast ▸ List.getLast_mem hne)

/-- The path of an entry of the directory to which the names lead. -/
theorem joinPath_absolutePath (hnames : ∀ n ∈ names, IsName n) (name : String) :
    joinPath (absolutePath names) name = absolutePath (names ++ [name]) := by
  cases names using List.reverseRecOn with
  | nil =>
    apply String.toList_injective
    simp [joinPath, toList_absolutePath, Separated.join]
  | append_singleton front last =>
    have hlast := getLast?_absolutePath front (hnames last (by simp))
    have hne := absolutePath_ne_empty (front ++ [last])
    rw [absolutePath_concat (show front ++ [last] ≠ [] by simp)]
    simp [joinPath, hlast, hne]

/-- A path that begins with a name starts in the current directory. -/
theorem start_append {name : String} (h : IsName name) (rest : String) :
    t.start (name ++ rest) = t.here := by
  obtain ⟨c, cs, hcs⟩ := List.exists_cons_of_ne_nil (show name.toList ≠ [] by
    simpa using h.ne_empty)
  have hc : c ≠ '/' := fun he => h.slash_notMem (by simp [hcs, he])
  simp [start, hcs, hc]

theorem append_ne_empty {name : String} (h : IsName name) (rest : String) : name ++ rest ≠ "" := by
  simp [h.ne_empty]

theorem parts_append (front rest : String) :
    parts (front ++ "/" ++ rest) = parts front ++ parts rest := by
  have hchars : (front ++ "/" ++ rest).toList = front.toList ++ '/' :: rest.toList := by simp
  rw [parts, hchars, Separated.split_append_sep, List.map_append]
  rfl

theorem parts_of_notMem {name : String} (h : '/' ∉ name.toList) : parts name = [name] := by
  simp [parts, Separated.split_of_notMem h]

theorem intercalate_parts (path : String) : "/".intercalate (parts path) = path := by
  apply String.toList_injective
  rw [String.toList_intercalate, parts, List.map_map]
  simp [Function.comp_def, ← Separated.join_eq_intercalate, Separated.join_split]

/-- The parent of a file is the path in front of its name. -/
theorem parentPath_append {dir last name : String} {front : List String}
    (hdir : parts dir = front ++ [last]) (hlast : IsName last) (hname : IsName name) :
    parentPath (dir ++ "/" ++ name) = dir := by
  have hparts : (parts (dir ++ "/" ++ name)).dropLast = front ++ [last] := by
    rw [parts_append, parts_of_notMem hname.slash_notMem, List.dropLast_concat, hdir]
  have htrimmed : ((front ++ [last]).reverse.dropWhile fun p => p == "" || p == ".").reverse =
      front ++ [last] := by
    simp [hlast.ne_empty, hlast.ne_dot]
  rw [parentPath, hparts, htrimmed]
  split
  · rename_i hnil
    simp at hnil
  · rw [← hdir, intercalate_parts]

theorem withinLimit_of_joinPath {path name : String} (h : withinLimit (joinPath path name) = true) :
    withinLimit path = true := by
  unfold withinLimit joinPath at *
  split at h <;> simp [String.utf8ByteSize_append] at h ⊢ <;> omega

theorem parts_absolutePath (hne : names ≠ []) (hnames : ∀ n ∈ names, IsName n) :
    parts (absolutePath names) = "" :: names := by
  have hsplit : Separated.split '/' (Separated.join '/' (names.map String.toList)) =
      names.map String.toList := by
    refine Separated.split_join (by simpa using hne) ?_
    intro part hpart
    obtain ⟨n, hn, rfl⟩ := List.mem_map.mp hpart
    exact (hnames n hn).slash_notMem
  simp [parts, toList_absolutePath, Separated.split, hsplit]

theorem walk?_append (names front rest : List String) :
    t.walk? names (front ++ rest) = (t.walk? names front).bind fun next => t.walk? next rest := by
  fun_induction walk? t names front with
  | case1 names => rfl
  | case2 names part front es _ hnode hskip ih =>
    rw [List.cons_append, walk?, hnode]
    simp only [hskip, if_true]
    exact ih
  | case3 names front es _ hnode hskip ih =>
    rw [List.cons_append, walk?, hnode]
    simp only [hskip, if_false, if_true]
    exact ih
  | case4 names part front es _ hnode hskip hdots hfound ih =>
    rw [List.cons_append, walk?, hnode]
    simp only [hskip, hdots, hfound, if_false, if_true]
    exact ih
  | case5 names part front es _ hnode hskip hdots hfound =>
    rw [List.cons_append, walk?, hnode]
    simp only [hskip, hdots, hfound, if_false]
    rfl
  | case6 names part front hnode =>
    rw [List.cons_append, walk?]
    split
    · rename_i es refusal hes
      exact absurd hes (hnode es refusal)
    · rfl

theorem walk?_of_node? {rest : List String} (hrest : ∀ n ∈ rest, IsName n) {node : FileNode}
    (h : t.node? (names ++ rest) = some node) : t.walk? names rest = some (names ++ rest) := by
  induction rest generalizing names with
  | nil => simp [walk?]
  | cons name rest ih =>
    obtain ⟨es, refusal, next, hes, hnext, -⟩ := node?_cons_some h
    obtain ⟨hempty, hdot, hdots, -⟩ := hrest name List.mem_cons_self
    rw [List.append_cons] at h ⊢
    rw [walk?, hes]
    simp only [hempty, hdot, hdots, or_self, if_false, Table.contains, hnext, Option.isSome_some,
      if_true]
    exact ih (fun n hn => hrest n (List.mem_cons_of_mem name hn)) h

/-- The path from the root to a directory leads there. -/
theorem canonical?_absolutePath (hnames : ∀ n ∈ names, IsName n) {es : List (String × FileNode)}
    {refusal : Option AccessFault} (hnode : t.node? names = some (.directory es refusal))
    (hlimit : withinLimit (absolutePath names) = true) :
    t.canonical? (absolutePath names) = some names := by
  rw [canonical?, if_pos ⟨absolutePath_ne_empty names, hlimit⟩, start_absolutePath]
  cases names with
  | nil =>
    have hroot : t.node? [] = some (.directory es refusal) := hnode
    have hparts : parts (absolutePath []) = ["", ""] := by decide
    simp [hparts, walk?, hroot]
  | cons name rest =>
    have hbelow : t.node? ([] ++ name :: rest) = some (.directory es refusal) := hnode
    obtain ⟨_, _, -, hroot, -, -⟩ := node?_cons_some hbelow
    rw [parts_absolutePath (List.cons_ne_nil name rest) hnames, walk?, hroot]
    simp only [true_or, if_true]
    exact walk?_of_node? hnames hnode

theorem withinLimit_of_append {rest : List String}
    (h : withinLimit (absolutePath (names ++ rest)) = true) :
    withinLimit (absolutePath names) = true := by
  induction rest using List.reverseRecOn with
  | nil => rwa [List.append_nil] at h
  | append_singleton rest name ih =>
    apply ih
    rw [← List.append_assoc] at h
    by_cases hne : names ++ rest = []
    · rw [hne]
      rfl
    · rw [absolutePath_concat hne] at h
      simp only [withinLimit, String.utf8ByteSize_append, decide_eq_true_eq] at h ⊢
      omega

theorem askForDirectory_of_isName {rest : List String} (h : ∀ n ∈ rest, IsName n) :
    askForDirectory rest = false := by
  cases rest with
  | nil => rfl
  | cons name rest =>
    obtain ⟨hempty, hdot, hdots, -⟩ := h name List.mem_cons_self
    simp [askForDirectory, hempty, hdot, hdots]

/-- Along names, the last path from the root is the longest. -/
theorem nameable_iff {rest : List String} (hrest : ∀ n ∈ rest, IsName n) :
    nameable names rest = true ↔
      rest = [] ∨ withinLimit (absolutePath (names ++ rest)) = true := by
  induction rest generalizing names with
  | nil => simp [nameable]
  | cons name rest ih =>
    obtain ⟨hname, hrest⟩ := List.forall_mem_cons.mp hrest
    obtain ⟨hempty, hdot, hdots, -⟩ := hname
    rw [nameable]
    simp only [hempty, hdot, hdots, or_self, if_false, askForDirectory_of_isName hrest,
      Bool.false_eq_true, Bool.and_eq_true, ih hrest, reduceCtorEq, false_or]
    rw [List.append_assoc, List.singleton_append]
    constructor
    · rintro ⟨hlimit, rfl | hlast⟩
      · exact hlimit
      · exact hlast
    · intro hlast
      rw [List.append_cons] at hlast
      exact ⟨withinLimit_of_append hlast, .inr (by rwa [← List.append_cons] at hlast)⟩

theorem isNamed_absolutePath (hnames : ∀ n ∈ names, IsName n) :
    t.isNamed (absolutePath names) = withinLimit (absolutePath names) := by
  rw [isNamed, start_absolutePath]
  cases names with
  | nil => decide
  | cons name rest =>
    rw [parts_absolutePath (List.cons_ne_nil name rest) hnames, nameable, if_pos (.inl rfl),
      Bool.eq_iff_iff, nameable_iff hnames]
    simp

/-- A walk adds only names. -/
theorem isName_of_walk? {rest final : List String} (hnames : ∀ n ∈ names, IsName n)
    (hrest : ∀ p ∈ rest, '/' ∉ p.toList) (h : t.walk? names rest = some final) :
    ∀ n ∈ final, IsName n := by
  fun_induction walk? t names rest with
  | case1 names =>
    cases h
    exact hnames
  | case2 names part rest es _ _ _ ih =>
    exact ih hnames (fun p hp => hrest p (List.mem_cons_of_mem part hp)) h
  | case3 names rest es _ _ _ ih =>
    exact ih (fun n hn => hnames n (List.dropLast_subset names hn))
      (fun p hp => hrest p (List.mem_cons_of_mem _ hp)) h
  | case4 names part rest es _ _ hskip hdots _ ih =>
    obtain ⟨hempty, hdot⟩ := not_or.mp hskip
    refine ih (fun n hn => ?_) (fun p hp => hrest p (List.mem_cons_of_mem part hp)) h
    rcases List.mem_append.mp hn with hn | hn
    · exact hnames n hn
    · rw [List.mem_singleton.mp hn]
      exact ⟨hempty, hdot, hdots, hrest part List.mem_cons_self⟩
  | case5 => cases h
  | case6 => cases h

theorem withinLimit_of_canonical? {path : String} (h : t.canonical? path = some names) :
    withinLimit path = true := by
  unfold canonical? at h
  split at h
  · rename_i hpath
    exact hpath.2
  · cases h

theorem exists_file_of_isFile {path : String} (hpath : t.canonical? path = some names)
    (h : t.isFile path = true) : ∃ content, t.node? names = some (.stored content) := by
  rw [isFile, lookup?, hpath, Option.bind_some] at h
  cases hnode : t.node? names with
  | none => simp [hnode] at h
  | some node =>
    cases node with
    | stored content => exact ⟨content, rfl⟩
    | directory es refusal => simp [hnode, FileNode.isFile] at h

theorem isName_of_canonical? {final : List String}
    (h : t.canonical? (absolutePath names) = some final) : ∀ n ∈ final, IsName n := by
  rw [canonical?, start_absolutePath] at h
  split at h
  · refine isName_of_walk? (by simp) (fun p hp => ?_) h
    obtain ⟨part, hpart, rfl⟩ := List.mem_map.mp hp
    rw [String.toList_ofList]
    exact Separated.notMem_of_mem_split hpart
  · cases h

end FileTree

end CallSchema
