import CallSchema.ModulePath
import CallSchema.Proofs.Paths

/-! # Segments of module paths

A module path that is put together from segments is taken apart into them again, and joining paths
joins their segments. So climbing drops segments from the end, and a relative import means the
module that is named by the segments that are left and those of the import.
-/

namespace CallSchema

namespace Separated

variable {sep : Char}

theorem beforeLast?_of_notMem {part : List Char} (h : sep ∉ part) :
    beforeLast? sep part = none := by
  induction part with
  | nil => rfl
  | cons c cs ih =>
    obtain ⟨hc, hcs⟩ := not_or.mp (mt List.mem_cons.mpr h)
    simp [beforeLast?, ih hcs, Ne.symm hc]

/-- The last separator is the one that no other follows. -/
theorem beforeLast?_append (front : List Char) {part : List Char} (h : sep ∉ part) :
    beforeLast? sep (front ++ sep :: part) = some front := by
  induction front with
  | nil => simp [beforeLast?, beforeLast?_of_notMem h]
  | cons c cs ih => simp [beforeLast?, ih]

end Separated

theorem Dotted.parts_append_dot (front back : String) :
    parts (front ++ "." ++ back) = parts front ++ parts back := by
  have hlist : (front ++ "." ++ back).toList = front.toList ++ '.' :: back.toList := by simp
  rw [parts, hlist, Separated.split_append_sep, List.map_append]
  rfl

namespace ModulePath

/-- A part of a path that is neither empty nor put together itself. -/
structure IsSegment (s : String) : Prop where
  ne_empty : s ≠ ""
  dot_notMem : '.' ∉ s.toList

/-- The path that consists of the given segments. -/
def ofSegments (segs : List String) : ModulePath :=
  ⟨Dotted.join segs⟩

theorem isRoot_iff {p : ModulePath} : p.isRoot = true ↔ p = root := by
  rw [isRoot, String.isEmpty_iff]
  exact ⟨fun h => congrArg ModulePath.mk h, fun h => congrArg text h⟩

theorem segments_eq (p : ModulePath) :
    p.segments = (Dotted.parts p.text).filter fun part => part ≠ "" := by
  refine List.filter_congr fun part _ => ?_
  rw [Bool.eq_iff_iff]
  simp

theorem join_root (child : String) : root.join child = ⟨child⟩ :=
  rfl

theorem join_empty (p : ModulePath) : p.join "" = p := by
  by_cases h : p.isRoot = true
  · rw [isRoot_iff.mp h]
    rfl
  · simp [join, h]

/-- A dot stands between the parts that are not empty. -/
theorem text_join (p : ModulePath) (child : String) :
    (p.join child).text = Dotted.join ([p.text, child].filter fun part => part ≠ "") := by
  by_cases hroot : p.isRoot = true
  · by_cases hchild : child = ""
    · rw [isRoot_iff.mp hroot, hchild]
      rfl
    · rw [isRoot_iff.mp hroot, join_root]
      simp [root, hchild, Dotted.join, Separated.join]
  · have htext : p.text ≠ "" := fun h => hroot (String.isEmpty_iff.mpr h)
    by_cases hchild : child = ""
    · rw [hchild, join_empty]
      simp [htext, Dotted.join, Separated.join]
    · apply String.toList_injective
      simp [join, hroot, htext, hchild, Dotted.join, Separated.join]

theorem segments_join (p : ModulePath) (child : String) :
    (p.join child).segments = p.segments ++ segments ⟨child⟩ := by
  by_cases hroot : p.isRoot = true
  · rw [isRoot_iff.mp hroot]
    rfl
  · by_cases hchild : child = ""
    · rw [hchild, join_empty]
      exact (List.append_nil _).symm
    · simp [join, hroot, hchild, segments, Dotted.parts_append_dot]

theorem segments_of_isSegment {s : String} (h : IsSegment s) : segments ⟨s⟩ = [s] := by
  simp [segments, Dotted.parts, Separated.split_of_notMem h.dot_notMem, h.ne_empty]

section Climbing

variable {segs : List String}

theorem ofSegments_singleton (s : String) : ofSegments [s] = ⟨s⟩ := by
  simp [ofSegments, Dotted.join, Separated.join]

theorem ofSegments_concat (hne : segs ≠ []) (s : String) :
    ofSegments (segs ++ [s]) = ⟨(ofSegments segs).text ++ "." ++ s⟩ := by
  have hmap : segs.map String.toList ≠ [] := by simpa using hne
  apply congrArg ModulePath.mk
  apply String.toList_injective
  simp [ofSegments, Dotted.join, Separated.join_concat hmap]

theorem ofSegments_concat_ne_root (segs : List String) {s : String} (h : IsSegment s) :
    (ofSegments (segs ++ [s])).isRoot = false := by
  have hne : ofSegments (segs ++ [s]) ≠ root := by
    intro hroot
    cases segs with
    | nil => exact h.ne_empty (congrArg text ((ofSegments_singleton s).symm.trans hroot))
    | cons first rest =>
      rw [ofSegments_concat (List.cons_ne_nil first rest)] at hroot
      exact h.ne_empty (String.append_eq_empty_iff.mp (congrArg text hroot)).2
  exact Bool.eq_false_iff.mpr (mt isRoot_iff.mp hne)

/-- The containing package lacks the last segment. -/
theorem parent?_ofSegments_concat (segs : List String) {s : String} (h : IsSegment s) :
    (ofSegments (segs ++ [s])).parent? = some (ofSegments segs) := by
  rw [parent?, if_neg (Bool.eq_false_iff.mp (ofSegments_concat_ne_root segs h))]
  cases segs with
  | nil =>
    rw [List.nil_append, ofSegments_singleton, Dotted.beforeLast?,
      Separated.beforeLast?_of_notMem h.dot_notMem]
    rfl
  | cons first rest =>
    have htext : ((ofSegments (first :: rest)).text ++ "." ++ s).toList =
        (ofSegments (first :: rest)).text.toList ++ '.' :: s.toList := by
      simp
    rw [ofSegments_concat (List.cons_ne_nil first rest), Dotted.beforeLast?, htext,
      Separated.beforeLast?_append _ h.dot_notMem]
    simp

/-- Climbing drops segments, as many as there are. -/
theorem climb_ofSegments (h : ∀ s ∈ segs, IsSegment s) (n : Nat) :
    climb n (ofSegments segs) =
      if n ≤ segs.length then some (ofSegments (segs.take (segs.length - n))) else none := by
  induction n generalizing segs with
  | zero => simp [climb]
  | succ n ih =>
    rcases List.eq_nil_or_concat segs with rfl | ⟨front, last, rfl⟩
    · rfl
    · rw [List.concat_eq_append] at h ⊢
      have hfront : ∀ s ∈ front, IsSegment s := fun s hs => h s (List.mem_append_left _ hs)
      have htake : (front ++ [last]).take (front.length - n) = front.take (front.length - n) :=
        List.take_append_of_le_length (Nat.sub_le _ _)
      rw [climb, parent?_ofSegments_concat front (h last (by simp))]
      simp only [ih hfront, List.length_append, List.length_singleton, Nat.add_le_add_iff_right,
        Nat.add_sub_add_right, htake]

theorem segments_ofSegments (h : ∀ s ∈ segs, IsSegment s) : (ofSegments segs).segments = segs := by
  induction segs using List.reverseRecOn with
  | nil => rfl
  | append_singleton front last ih =>
    have hlast := h last (by simp)
    have hfront := ih fun s hs => h s (List.mem_append_left _ hs)
    have hjoin : ofSegments (front ++ [last]) = (ofSegments front).join last := by
      cases front using List.reverseRecOn with
      | nil => exact ofSegments_singleton last
      | append_singleton front' last' =>
        have hroot := ofSegments_concat_ne_root front' (h last' (by simp))
        rw [ofSegments_concat (by simp), join]
        simp [hroot, hlast.ne_empty]
    rw [hjoin, segments_join, hfront, segments_of_isSegment hlast]

end Climbing

/-- How many packages a relative import climbs: the first level is the own package, which for a
package is itself. -/
def levelsUp (isPackage : Bool) (level : Nat) : Nat :=
  if isPackage then level - 1 else level

theorem relative_eq (p : ModulePath) (isPackage : Bool) {level : Nat} (h : 1 ≤ level)
    (module : Option String) : p.relative isPackage level module =
      (climb (levelsUp isPackage level) p).map fun base => base.join (module.getD "") := by
  have hclimb : p.relative isPackage level none = climb (levelsUp isPackage level) p := by
    obtain ⟨level, rfl⟩ := Nat.exists_eq_add_one_of_ne_zero (Nat.ne_zero_of_lt h)
    cases isPackage with
    | true => simp [relative, levelsUp]
    | false => cases hp : p.parent? <;> simp [relative, levelsUp, climb, hp]
  rw [← hclimb]
  cases module with
  | none => simp [join_empty]
  | some m =>
    cases isPackage with
    | true => cases hbase : climb (level - 1) p <;> simp [relative, hbase]
    | false =>
      cases hown : p.parent? with
      | none => simp [relative, hown]
      | some own => cases hbase : climb (level - 1) own <;> simp [relative, hown, hbase]

/-- A relative import means the module that is left after climbing, with the path of the import
below it; there is none if it climbs further than the module is deep. -/
theorem relative_climbs (segs : List String) (isPackage : Bool) (level : Nat)
    (module : Option String) (hsegs : ∀ s ∈ segs, s ≠ "" ∧ '.' ∉ s.toList) (hlevel : 1 ≤ level) :
    (relative ⟨Dotted.join segs⟩ isPackage level module = none ↔
        levelsUp isPackage level > segs.length) ∧
      (levelsUp isPackage level ≤ segs.length →
        ∃ q, relative ⟨Dotted.join segs⟩ isPackage level module = some q ∧
          q.text = Dotted.join
            ([Dotted.join (segs.take (segs.length - levelsUp isPackage level)),
              module.getD ""].filter fun part => part ≠ "") ∧
          q.segments = segs.take (segs.length - levelsUp isPackage level) ++
            (Dotted.parts (module.getD "")).filter fun part => part ≠ "") := by
  have hsegment : ∀ s ∈ segs, IsSegment s := fun s hs => ⟨(hsegs s hs).1, (hsegs s hs).2⟩
  have hrelative : relative ⟨Dotted.join segs⟩ isPackage level module = _ :=
    relative_eq (ofSegments segs) isPackage hlevel module
  rw [climb_ofSegments hsegment] at hrelative
  constructor
  · rw [hrelative]
    simp
  · intro hle
    rw [if_pos hle] at hrelative
    refine ⟨_, hrelative, text_join _ _, ?_⟩
    rw [segments_join, segments_ofSegments fun s hs => hsegment s (List.mem_of_mem_take hs),
      segments_eq ⟨module.getD ""⟩]

/-- From `pkg.sub.bar`, the import `..foo.baz` means `pkg.foo.baz`. From the package `pkg.sub`, four
levels lead above the root. -/
theorem relative_climbs_sub :
    (∀ s ∈ ["pkg", "sub", "bar"], s ≠ "" ∧ '.' ∉ s.toList) ∧
      (∃ q, relative ⟨"pkg.sub.bar"⟩ false 2 (some "foo.baz") = some q ∧ q.text = "pkg.foo.baz" ∧
        q.segments = ["pkg", "foo", "baz"]) ∧
      relative ⟨"pkg.sub"⟩ true 4 none = none := by
  have hsegs : ∀ s ∈ ["pkg", "sub", "bar"], s ≠ "" ∧ '.' ∉ s.toList := by decide
  have hsub : ∀ s ∈ ["pkg", "sub"], s ≠ "" ∧ '.' ∉ s.toList := by decide
  refine ⟨hsegs, ?_, ?_⟩
  · exact (relative_climbs ["pkg", "sub", "bar"] false 2 (some "foo.baz") hsegs (by decide)).2
      (by decide)
  · exact (relative_climbs ["pkg", "sub"] true 4 none hsub (by decide)).1.mpr (by decide)

end ModulePath

end CallSchema
