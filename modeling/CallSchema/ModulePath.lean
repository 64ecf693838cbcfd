import CallSchema.Dotted

/-! # Module paths

A module is named by its dotted path below the scan root; the empty path is the root itself.
Relative imports climb from a module to the packages that contain it.
-/

namespace CallSchema

structure ModulePath where
  text : String
deriving DecidableEq, Repr, Inhabited

namespace ModulePath

def root : ModulePath :=
  ⟨""⟩

def isRoot (p : ModulePath) : Bool :=
  p.text.isEmpty

/-- The non-empty parts of the path. -/
def segments (p : ModulePath) : List String :=
  (Dotted.parts p.text).filter fun s => !s.isEmpty

/-- The containing package; the root has none. -/
def parent? (p : ModulePath) : Option ModulePath :=
  if p.isRoot then none
  else match Dotted.beforeLast? p.text with
    | some front => some ⟨front⟩
    | none => some root

/-- The path with a dotted suffix below it. -/
def join (p : ModulePath) (child : String) : ModulePath :=
  if p.isRoot then ⟨child⟩
  else if child.isEmpty then p
  else ⟨p.text ++ "." ++ child⟩

/-- The package `n` levels up. -/
def climb : Nat → ModulePath → Option ModulePath
  | 0, p => some p
  | n + 1, p =>
    match p.parent? with
    | some q => climb n q
    | none => none

/-- The module meant by a relative import of the given level, one being the own package. The own
package of a package is itself. There is no such module above the root. -/
def relative (p : ModulePath) (isPackage : Bool) (level : Nat) (module : Option String) :
    Option ModulePath := do
  let own ← if isPackage then some p else p.parent?
  let base ← climb (level - 1) own
  match module with
  | some m => some (base.join m)
  | none => some base

/-- A name inside the module, as written in messages. -/
def qualify (p : ModulePath) (name : String) : String :=
  if p.isRoot then name else p.text ++ "." ++ name

end ModulePath

end CallSchema
