import CallSchema.Environment.Basic

/-! # Name lookup

A name is looked up in its module and then, one import after the other, in the modules it may come
from, up to a number of hops. A pair of module and name is looked at again only with more hops left
than ever before.
-/

namespace CallSchema

inductive Lookup where
  | found (key : TypeKey) (definition : Definition)
  /-- The name is bound by an absolute import. -/
  | external
  | missing
deriving Repr

namespace Environment

/-- The answer of a module itself, without its relative imports. -/
def settled? (env : Environment) (key : TypeKey) : Option Lookup :=
  match env.catalog.find? key with
  | some d => some (.found key d)
  | none =>
    match env.scopes.find? key.module with
    | some scope => if scope.isExternal key.name then some .external else none
    | none => none

/-- Where the lookup goes on. -/
def steps (env : Environment) (key : TypeKey) : List TypeKey :=
  match env.scopes.find? key.module with
  | some scope => scope.sources key.name
  | none => []

/-- The most hops that were left at each pair looked at. -/
abbrev Seen := Table TypeKey Nat

def Seen.covers (seen : Seen) (key : TypeKey) (hops : Nat) : Bool :=
  match Table.find? seen key with
  | some budget => decide (hops ≤ budget)
  | none => false

/-- The first answer that is not `missing`. -/
def firstFound (look : TypeKey → Seen → Lookup × Seen) : List TypeKey → Seen → Lookup × Seen
  | [], seen => (.missing, seen)
  | key :: rest, seen =>
    match look key seen with
    | (.missing, seen) => firstFound look rest seen
    | answer => answer

def lookupIn (env : Environment) : Nat → TypeKey → Seen → Lookup × Seen
  | hops, key, seen =>
    if seen.covers key hops then (.missing, seen)
    else
      let seen := seen.enter key hops
      match env.settled? key with
      | some answer => (answer, seen)
      | none =>
        match hops with
        | 0 => (.missing, seen)
        | left + 1 => firstFound (lookupIn env left) (env.steps key) seen

/-- The definition that a name means inside a module, following at most `hops` imports. -/
def lookup (env : Environment) (hops : Nat) (key : TypeKey) : Lookup :=
  (env.lookupIn hops key []).1

end Environment

end CallSchema
