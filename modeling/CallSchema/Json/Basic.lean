import CallSchema.Binary64

/-! # JSON values

Whole numbers and doubles are told apart, and an object is the list of its members in the order in
which they are written.
-/

namespace CallSchema

inductive Json where
  | null
  | bool (b : Bool)
  | int (i : Int)
  | float (x : Binary64)
  | str (s : String)
  | arr (items : List Json)
  | obj (members : List (String × Json))
deriving Inhabited

namespace Json

/-- A double as a value; those that are not finite have none but `null`. -/
def ofBinary64 (x : Binary64) : Json :=
  if x.isFinite then .float x else .null

def ofStrings (ss : List String) : Json :=
  .arr (ss.map .str)

mutual

/-- How deep arrays and objects are nested. -/
def depth : Json → Nat
  | .arr vs => depthAll vs + 1
  | .obj ms => depthMembers ms + 1
  | _ => 0

def depthAll : List Json → Nat
  | [] => 0
  | v :: vs => max (depth v) (depthAll vs)

def depthMembers : List (String × Json) → Nat
  | [] => 0
  | (_, v) :: ms => max (depth v) (depthMembers ms)

end

end Json

end CallSchema
