/-! # Separated text

A text is cut at each occurrence of a separator. Empty parts count: the empty text has one part.
Cutting and joining are inverse to each other on parts without the separator.
-/

namespace CallSchema.Separated

/-- The parts between separators. -/
def split (sep : Char) : List Char → List (List Char)
  | [] => [[]]
  | c :: cs =>
    if c = sep then [] :: split sep cs
    else match split sep cs with
      | [] => [[c]]
      | part :: rest => (c :: part) :: rest

def join (sep : Char) : List (List Char) → List Char
  | [] => []
  | [part] => part
  | part :: rest => part ++ sep :: join sep rest

/-- What stands before the last separator. -/
def beforeLast? (sep : Char) : List Char → Option (List Char)
  | [] => none
  | c :: cs =>
    match beforeLast? sep cs with
    | some front => some (c :: front)
    | none => if c = sep then some [] else none

variable {sep : Char}

theorem split_ne_nil (cs : List Char) : split sep cs ≠ [] := by
  cases cs with
  | nil => simp [split]
  | cons c cs =>
    by_cases h : c = sep
    · simp [split, h]
    · rw [split, if_neg h]
      cases split sep cs <;> simp

theorem join_cons {part : List Char} {rest : List (List Char)} (h : rest ≠ []) :
    join sep (part :: rest) = part ++ sep :: join sep rest := by
  cases rest with
  | nil => exact absurd rfl h
  | cons _ _ => rfl

/-- Cutting loses nothing. -/
theorem join_split (cs : List Char) : join sep (split sep cs) = cs := by
  induction cs with
  | nil => rfl
  | cons c cs ih =>
    by_cases h : c = sep
    · rw [split, if_pos h, join_cons (split_ne_nil cs), ih, h, List.nil_append]
    · rw [split, if_neg h]
      cases hs : split sep cs with
      | nil => exact absurd hs (split_ne_nil cs)
      | cons part rest =>
        rw [hs] at ih
        cases rest with
        | nil => exact congrArg (c :: ·) ih
        | cons _ _ => exact congrArg (c :: ·) ih

theorem split_of_notMem {part : List Char} (h : sep ∉ part) : split sep part = [part] := by
  induction part with
  | nil => rfl
  | cons c cs ih =>
    rw [List.mem_cons, not_or] at h
    rw [split, if_neg (Ne.symm h.1), ih h.2]

theorem split_append {part : List Char} (h : sep ∉ part) (cs : List Char) :
    split sep (part ++ sep :: cs) = part :: split sep cs := by
  induction part with
  | nil => simp [split]
  | cons c part ih =>
    rw [List.mem_cons, not_or] at h
    rw [List.cons_append, split, if_neg (Ne.symm h.1), ih h.2]

theorem split_join {parts : List (List Char)} (hne : parts ≠ []) (h : ∀ part ∈ parts, sep ∉ part) :
    split sep (join sep parts) = parts := by
  induction parts with
  | nil => exact absurd rfl hne
  | cons part rest ih =>
    have hp : sep ∉ part := h part List.mem_cons_self
    cases rest with
    | nil => exact split_of_notMem hp
    | cons next rest =>
      rw [join_cons (List.cons_ne_nil next rest), split_append hp,
        ih (List.cons_ne_nil next rest) fun p hm => h p (List.mem_cons_of_mem part hm)]

end CallSchema.Separated
