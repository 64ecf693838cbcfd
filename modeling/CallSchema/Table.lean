/-! # Tables

Association lists that keep the order in which keys were first entered. Entering a key again
replaces its value and leaves its place.
-/

namespace CallSchema

/-- Appends an element unless it is there already. -/
def addNew {α : Type} [DecidableEq α] (xs : List α) (x : α) : List α :=
  if x ∈ xs then xs else xs ++ [x]

abbrev Table (κ ν : Type) := List (κ × ν)

namespace Table

variable {κ ν : Type} [DecidableEq κ]

def find? : Table κ ν → κ → Option ν
  | [], _ => none
  | (k, v) :: t, key => if k = key then some v else find? t key

def enter : Table κ ν → κ → ν → Table κ ν
  | [], key, value => [(key, value)]
  | (k, v) :: t, key, value => if k = key then (k, value) :: t else (k, v) :: enter t key value

def contains (t : Table κ ν) (key : κ) : Bool :=
  (t.find? key).isSome

def keys (t : Table κ ν) : List κ :=
  t.map Prod.fst

/-- Enters a list of pairs from left to right. -/
def enterAll (t : Table κ ν) (pairs : List (κ × ν)) : Table κ ν :=
  pairs.foldl (fun t (k, v) => enter t k v) t

def ofList (pairs : List (κ × ν)) : Table κ ν :=
  enterAll [] pairs

theorem find?_enter_self (t : Table κ ν) (key : κ) (value : ν) :
    (t.enter key value).find? key = some value := by
  induction t with
  | nil => simp [enter, find?]
  | cons p t ih =>
    obtain ⟨k, v⟩ := p
    by_cases h : k = key
    · simp [enter, find?, h]
    · simp [enter, find?, h, ih]

theorem find?_enter_of_ne (t : Table κ ν) {key other : κ} (value : ν) (h : key ≠ other) :
    (t.enter key value).find? other = t.find? other := by
  induction t with
  | nil => simp [enter, find?, h]
  | cons p t ih =>
    obtain ⟨k, v⟩ := p
    by_cases hk : k = key
    · subst hk
      simp [enter, find?, h]
    · simp [enter, find?, hk, ih]

/-- A key that is entered again keeps its place, and a new one comes last. -/
theorem keys_enter (t : Table κ ν) (key : κ) (value : ν) :
    (t.enter key value).keys = addNew t.keys key := by
  induction t with
  | nil => rfl
  | cons p t ih =>
    obtain ⟨k, v⟩ := p
    by_cases h : k = key
    · simp [enter, keys, addNew, h]
    · have h' : ¬ key = k := fun e => h e.symm
      simp only [keys, addNew] at ih
      by_cases hm : key ∈ List.map Prod.fst t
      · simp [enter, keys, addNew, h, hm, ih]
      · simp [enter, keys, addNew, h, h', hm, ih]

end Table

end CallSchema
