import Mathlib.Algebra.Ring.Nat
import Mathlib.Data.List.Lex
import Mathlib.Data.List.Nodup
import CallSchema.FileTree.Basic

/-! # The order of names

Names are sorted by code points, which is the order of their bytes: of two characters the greater
one has at least as many bytes, and where they have equally many, these are the digits of a number.
-/

namespace CallSchema

namespace FileTree

/-- The bytes that a name is stored as. -/
def nameBytes (name : String) : List UInt8 :=
  name.toUTF8.data.toList

theorem nameBytes_eq (name : String) :
    nameBytes name = name.toList.flatMap String.utf8EncodeChar := by
  have h := congrArg (fun bytes => bytes.data.toList) (@String.toByteArray_ofList name.toList)
  simpa [nameBytes, String.toUTF8, List.utf8Encode] using h

end FileTree

namespace Encoding

/-- A byte after the first one holds six bits. -/
def continuation (v : Nat) : UInt8 :=
  UInt8.ofNat (v % 64 + 128)

/-- The last bytes of a character, each for a digit in base 64. -/
def continuations : Nat → Nat → List UInt8
  | 0, _ => []
  | k + 1, v => continuations k (v / 64) ++ [continuation v]

/-- The number of bytes after the first one. -/
def further (v : Nat) : Nat :=
  if v ≤ 127 then 0 else if v ≤ 2047 then 1 else if v ≤ 65535 then 2 else 3

/-- What the first byte adds to its digit. -/
def lead : Nat → Nat
  | 0 => 0
  | 1 => 192
  | 2 => 224
  | _ => 240

theorem ofNat_lt {a b : Nat} (hab : a < b) (hb : b < 256) : UInt8.ofNat a < UInt8.ofNat b := by
  simpa [UInt8.lt_iff_toNat_lt, Nat.mod_eq_of_lt hb, Nat.mod_eq_of_lt (hab.trans hb)] using hab

theorem toNat_lt (c : Char) : c.toNat < 1114112 := by
  rcases c.valid with hlow | ⟨-, hhigh⟩
  · exact Nat.lt_trans hlow (by decide)
  · exact hhigh

theorem utf8EncodeChar_eq (c : Char) : String.utf8EncodeChar c =
    UInt8.ofNat (c.toNat / 64 ^ further c.toNat + lead (further c.toNat)) ::
      continuations (further c.toNat) c.toNat := by
  have hc := toNat_lt c
  unfold String.utf8EncodeChar further
  simp only [Char.toNat_val]
  generalize c.toNat = v at *
  split_ifs with h1 h2 h3
  · simp [lead, continuations]
  · have hfirst : v / 64 % 32 = v / 64 := Nat.mod_eq_of_lt (by omega)
    simp [lead, continuations, continuation, hfirst]
  · have hfirst : v / 4096 % 16 = v / 4096 := Nat.mod_eq_of_lt (by omega)
    simp [lead, continuations, continuation, hfirst]
  · have hfirst : v / 262144 % 8 = v / 262144 := Nat.mod_eq_of_lt (by omega)
    simp [lead, continuations, continuation, hfirst, Nat.div_div_eq_div_mul]

theorem continuation_lt {v w : Nat} (h : v % 64 < w % 64) : continuation v < continuation w :=
  ofNat_lt (by omega) (by omega)

/-- Numbers that differ in their last digits only compare as these digits do. -/
theorem continuations_append_lt {k v w : Nat} (hlt : v < w) (heq : v / 64 ^ k = w / 64 ^ k)
    (xs ys : List UInt8) : continuations k v ++ xs < continuations k w ++ ys := by
  induction k generalizing v w xs ys with
  | zero => omega
  | succ k ih =>
    simp only [continuations, List.append_assoc, List.singleton_append]
    rcases (Nat.div_le_div_right (Nat.le_of_lt hlt) : v / 64 ≤ w / 64).lt_or_eq with hfront | hfront
    · refine ih hfront ?_ _ _
      rwa [Nat.div_div_eq_div_mul, Nat.div_div_eq_div_mul, ← Nat.pow_succ']
    · rw [hfront]
      exact List.append_left_lt (List.Lex.rel (continuation_lt (by omega)))

theorem first_lt_256 {v : Nat} (h : v < 1114112) : v / 64 ^ further v + lead (further v) < 256 := by
  unfold further
  split_ifs <;> simp only [lead, Nat.reducePow] <;> omega

theorem first_lt {v w : Nat} (h : v < w) (hne : further v ≠ further w) :
    v / 64 ^ further v + lead (further v) < w / 64 ^ further w + lead (further w) := by
  unfold further at *
  split_ifs at * <;> simp only [lead, Nat.reducePow] <;> omega

/-- A greater character has greater bytes, whatever follows. -/
theorem utf8EncodeChar_append_lt {c d : Char} (h : c.toNat < d.toNat) (xs ys : List UInt8) :
    String.utf8EncodeChar c ++ xs < String.utf8EncodeChar d ++ ys := by
  have hd := toNat_lt d
  rw [utf8EncodeChar_eq, utf8EncodeChar_eq, List.cons_append, List.cons_append]
  generalize c.toNat = v at *
  generalize d.toNat = w at *
  by_cases hfurther : further v = further w
  · rw [hfurther]
    rcases (Nat.div_le_div_right (Nat.le_of_lt h) :
      v / 64 ^ further w ≤ w / 64 ^ further w).lt_or_eq with hfirst | hfirst
    · exact List.Lex.rel (ofNat_lt (Nat.add_lt_add_right hfirst _) (first_lt_256 hd))
    · rw [hfirst]
      exact List.Lex.cons (continuations_append_lt h hfirst xs ys)
  · exact List.Lex.rel (ofNat_lt (first_lt h hfurther) (first_lt_256 hd))

end Encoding

namespace FileTree

theorem nameLe_total (as bs : List Char) : nameLe as bs = true ∨ nameLe bs as = true := by
  induction as generalizing bs with
  | nil => exact .inl rfl
  | cons a as ih =>
    cases bs with
    | nil => exact .inr rfl
    | cons b bs =>
      by_cases hab : a = b
      · simpa [nameLe, hab] using ih bs
      · have hne : a.toNat ≠ b.toNat := fun h => hab (Char.toNat_inj.mp h)
        simp only [nameLe, if_neg hab, if_neg (Ne.symm hab), decide_eq_true_eq]
        omega

theorem nameLe_trans {as bs cs : List Char} (hab : nameLe as bs = true)
    (hbc : nameLe bs cs = true) :
    nameLe as cs = true := by
  induction as generalizing bs cs with
  | nil => rfl
  | cons a as ih =>
    cases bs with
    | nil => cases hab
    | cons b bs =>
      cases cs with
      | nil => cases hbc
      | cons c cs =>
        by_cases h : a = b <;> by_cases h' : b = c
        · subst h h'
          simp only [nameLe, if_true] at *
          exact ih hab hbc
        · subst h
          simpa [nameLe, h'] using hbc
        · subst h'
          simpa [nameLe, h] using hab
        · simp only [nameLe, if_neg h, if_neg h', decide_eq_true_eq] at hab hbc
          have hne : a ≠ c := by
            rintro rfl
            omega
          simp only [nameLe, if_neg hne, decide_eq_true_eq]
          omega

/-- Names in the order of their code points are in the order of their bytes. -/
theorem utf8Encode_lt_of_nameLe {as bs : List Char} (h : nameLe as bs = true) (hne : as ≠ bs) :
    as.flatMap String.utf8EncodeChar < bs.flatMap String.utf8EncodeChar := by
  induction as generalizing bs with
  | nil =>
    cases bs with
    | nil => exact absurd rfl hne
    | cons b bs =>
      rw [List.flatMap_cons, Encoding.utf8EncodeChar_eq]
      exact List.Lex.nil
  | cons a as ih =>
    cases bs with
    | nil => cases h
    | cons b bs =>
      rw [List.flatMap_cons, List.flatMap_cons]
      by_cases hab : a = b
      · subst hab
        simp only [nameLe, if_true] at h
        exact List.append_left_lt (ih h fun he => hne (he ▸ rfl))
      · simp only [nameLe, if_neg hab, decide_eq_true_eq] at h
        exact Encoding.utf8EncodeChar_append_lt h _ _

theorem nameBytes_lt_of_nameLe {a b : String} (h : nameLe a.toList b.toList = true) (hne : a ≠ b) :
    nameBytes a < nameBytes b := by
  rw [nameBytes_eq, nameBytes_eq]
  exact utf8Encode_lt_of_nameLe h fun he => hne (String.toList_injective he)

/-- Different names are sorted in the strict order of their bytes. -/
theorem pairwise_sortByName {α : Type} {xs : List (String × α)} (h : (xs.map Prod.fst).Nodup) :
    (sortByName xs).Pairwise fun a b => nameBytes a.1 < nameBytes b.1 := by
  have hsorted := List.pairwise_mergeSort
    (fun a b c : String × α => @nameLe_trans a.1.toList b.1.toList c.1.toList)
    (fun a b => Bool.or_eq_true_iff.mpr (nameLe_total a.1.toList b.1.toList)) xs
  have hnodup : ((sortByName xs).map Prod.fst).Nodup :=
    ((List.mergeSort_perm xs _).map Prod.fst).nodup_iff.mpr h
  exact hsorted.imp₂ (fun a b hle hne => nameBytes_lt_of_nameLe hle hne)
    (List.pairwise_map.mp hnodup)

end FileTree

end CallSchema
