import CallSchema.Separated

/-! # Dotted names

Names of modules, types and attributes are cut at their dots.
-/

namespace CallSchema.Dotted

def parts (name : String) : List String :=
  (Separated.split '.' name.toList).map String.ofList

def join (parts : List String) : String :=
  String.ofList (Separated.join '.' (parts.map String.toList))

/-- What stands before the last dot. -/
def beforeLast? (name : String) : Option String :=
  (Separated.beforeLast? '.' name.toList).map String.ofList

/-- The part before the first dot. -/
def root (name : String) : String :=
  String.ofList (name.toList.takeWhile (· ≠ '.'))

end CallSchema.Dotted
