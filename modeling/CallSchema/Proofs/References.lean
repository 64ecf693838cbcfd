import Mathlib.Logic.Relation
import CallSchema.Proofs.Reachability

/-! # References between definitions

The names that a type expression mentions, and the relation that leads from a definition to those
whose names it mentions.
-/

namespace CallSchema

namespace TypeExpr

/-- Induction on type expressions, the members of a union being available as such. -/
@[elab_as_elim, induction_eliminator]
theorem induct {motive : TypeExpr → Prop} (primitive : ∀ p, motive (.primitive p))
    (none : motive .none) (any : motive .any) (list : ∀ item, motive item → motive (.list item))
    (dict : ∀ key value, motive key → motive value → motive (.dict key value))
    (optional : ∀ inner, motive inner → motive (.optional inner))
    (union : ∀ members, (∀ e ∈ members, motive e) → motive (.union members))
    (literal : ∀ members, motive (.literal members))
    (reference : ∀ name, motive (.reference name)) (external : ∀ name, motive (.external name))
    (unsupported : ∀ name, motive (.unsupported name)) : ∀ e, motive e := by
  intro e
  refine @TypeExpr.rec motive (fun es => ∀ e ∈ es, motive e) primitive none any list dict
    optional union literal reference external unsupported ?_ ?_ e
  · intro e he
    exact absurd he List.not_mem_nil
  · intro head tail hhead htail e he
    rcases List.mem_cons.mp he with rfl | he
    · exact hhead
    · exact htail e he

mutual

/-- The names mentioned, in the order of their occurrence. -/
def references : TypeExpr → List String
  | .list item => references item
  | .dict key value => references key ++ references value
  | .optional inner => references inner
  | .union members => referencesAll members
  | .reference name => [name]
  | .primitive _ | .none | .any | .literal _ | .external _ | .unsupported _ => []

def referencesAll : List TypeExpr → List String
  | [] => []
  | e :: es => references e ++ referencesAll es

end

theorem mem_referencesAll {name : String} {es : List TypeExpr} :
    name ∈ referencesAll es ↔ ∃ e ∈ es, name ∈ e.references := by
  induction es with
  | nil => simp [referencesAll]
  | cons e es ih => simp [referencesAll, ih]

end TypeExpr

def Definition.references : Definition → List String
  | .alias body => body.references
  | .record r => TypeExpr.referencesAll (r.fields.map Prod.snd)
  | .invalid _ => []

namespace Environment

/-- Whether the definition of `key` mentions a name that means `other`. -/
def Uses (env : Environment) (hops : Nat) (key other : TypeKey) : Prop :=
  ∃ d name d', env.catalog.find? key = some d ∧ name ∈ d.references ∧
    env.lookup hops ⟨key.module, name⟩ = .found other d'

variable {env : Environment} {hops : Nat}

/-- An answer of a lookup is the own answer of a pair that steps lead to. -/
theorem lookup_settles {P : TypeKey → Prop} (hsteps : ∀ key, P key → ∀ next ∈ env.steps key, P next)
    {key : TypeKey} (hkey : P key) {answer : Lookup} (h : env.lookup hops key = answer)
    (hne : answer ≠ .missing) : ∃ last, P last ∧ env.settled? last = some answer := by
  obtain ⟨last, hlast, hs⟩ := lookup_within h hne
  have hpreserves := fun key hk next (hstep : env.Step key next) =>
    hsteps key hk next hstep.mem_steps
  exact ⟨last, hlast.preserves hpreserves hkey, hs⟩

/-- What a name means is always a definition of the catalog. -/
theorem lookup_found {key found : TypeKey} {d : Definition}
    (h : env.lookup hops key = .found found d) : env.catalog.find? found = some d := by
  obtain ⟨last, -, hs⟩ := lookup_within h (by simp)
  exact (settled?_found hs).2

end Environment

end CallSchema
