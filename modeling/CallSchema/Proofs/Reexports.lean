import CallSchema.Proofs.Reachability

/-! # Chains of explicit imports

A module that imports a name explicitly hands it on to the modules that import it from there. Such a
chain names its next pair at every step, so that it never comes back to a pair before it ends at a
definition, and a lookup follows it whatever else the modules on the way import.
-/

namespace CallSchema.Environment

/-- The module has no answer of its own for the name and imports it explicitly from `target`. -/
structure Reexports (env : Environment) (key target : TypeKey) : Prop where
  undefined : env.catalog.find? key = none
  bound : ∃ scope, env.scopes.find? key.module = some scope ∧ key.name ∉ scope.external ∧
    scope.bindings.find? key.name = some target

variable {env : Environment} {pairs : Nat → TypeKey} {k : Nat} {d : Definition}

theorem Reexports.settled? {key target : TypeKey} (h : env.Reexports key target) :
    env.settled? key = none := by
  obtain ⟨hown, scope, hscope, hexternal, -⟩ := h
  simp [Environment.settled?, hown, hscope, Scope.isExternal, hexternal]

theorem Reexports.unique {key target target' : TypeKey} (h : env.Reexports key target)
    (h' : env.Reexports key target') : target = target' := by
  obtain ⟨-, scope, hscope, -, hbound⟩ := h
  obtain ⟨-, scope', hscope', -, hbound'⟩ := h'
  cases hscope.symm.trans hscope'
  exact Option.some.inj (hbound.symm.trans hbound')

/-- The target of an explicit import is asked before all relative imports. -/
theorem Reexports.search_eq_found {key target found : TypeKey} (h : env.Reexports key target)
    {path : List TypeKey} {left : Nat} (hp : key ∉ path)
    (htarget : env.search left (key :: path) target = .found found d) :
    env.search (left + 1) path key = .found found d := by
  obtain ⟨scope, hscope, -, hbound⟩ := h.bound
  have hsteps : env.steps key = target :: scope.relative.map fun m => ⟨m, key.name⟩ := by
    simp [steps, hscope, Scope.sources, hbound]
  rw [search_succ left hp h.settled?, hsteps, List.map_cons, Lookup.first, htarget]
  rfl

/-- A chain that came back to its first pair would go round, and none of its pairs is defined
before the last. -/
theorem ne_first_of_reexports (hchain : ∀ i < k, env.Reexports (pairs i) (pairs (i + 1)))
    (hd : env.catalog.find? (pairs k) = some d) {i : Nat} (hpos : 0 < i) (hi : i ≤ k) :
    pairs i ≠ pairs 0 := by
  intro hback
  have hround : ∀ j, i + j ≤ k → pairs (i + j) = pairs j := by
    intro j
    induction j with
    | zero => exact fun _ => hback
    | succ j ih =>
      intro hj
      have hsame := ih (by omega)
      have hnext := hchain (i + j) (by omega)
      rw [hsame] at hnext
      exact hnext.unique (hchain j (by omega))
  have hlast := hround (k - i) (by omega)
  rw [Nat.add_sub_cancel' hi] at hlast
  have hnone := (hchain (k - i) (by omega)).undefined
  rw [← hlast, hd] at hnone
  cases hnone

/-- The induction is along the chain: the rest of it avoids the pair that it leaves. -/
theorem search_of_reexports (hchain : ∀ i < k, env.Reexports (pairs i) (pairs (i + 1)))
    (hd : env.catalog.find? (pairs k) = some d) {path : List TypeKey}
    (hpath : ∀ i ≤ k, pairs i ∉ path) {hops : Nat} (hhops : k ≤ hops) :
    env.search hops path (pairs 0) = .found (pairs k) d := by
  induction k generalizing pairs path hops with
  | zero =>
    have hs : env.settled? (pairs 0) = some (.found (pairs 0) d) :=
      settled?_eq_some_iff.mpr (.inl ⟨d, hd, rfl⟩)
    exact search_of_settled hops (hpath 0 (Nat.le_refl 0)) hs
  | succ k ih =>
    obtain ⟨left, rfl⟩ := Nat.exists_eq_add_one_of_ne_zero (show hops ≠ 0 by omega)
    refine (hchain 0 (Nat.succ_pos k)).search_eq_found (hpath 0 (Nat.zero_le _)) ?_
    refine @ih (fun i => pairs (i + 1)) (fun i hi => hchain (i + 1) (by omega)) hd _
      (fun i hi => ?_) left (by omega)
    exact List.not_mem_cons_of_ne_of_not_mem
      (ne_first_of_reexports hchain hd (Nat.succ_pos i) (by omega)) (hpath (i + 1) (by omega))

/-- A chain of explicit imports that ends at a definition is followed to it, with as many hops as it
has imports or more. -/
theorem lookup_reexported (env : Environment) (pairs : Nat → TypeKey) (k hops : Nat)
    (d : Definition) (hchain : ∀ i < k, env.Reexports (pairs i) (pairs (i + 1)))
    (hd : env.catalog.find? (pairs k) = some d) (hhops : k ≤ hops) :
    env.lookup hops (pairs 0) = .found (pairs k) d := by
  rw [← search_nil]
  exact search_of_reexports hchain hd (fun _ _ => List.not_mem_nil) hhops

/-- A service that takes `Port` from its package, which has it from the types under two other names.
The service also imports all of a module with a `Port` of its own, and the package all of the
service. -/
def forwarding : Environment where
  catalog := [(⟨⟨"pkg.types"⟩, "Number"⟩, .alias (.primitive .int)),
    (⟨⟨"pkg.legacy"⟩, "Port"⟩, .alias (.primitive .str))]
  scopes := [
    (⟨"pkg.service"⟩, (Scope.empty.addRelative ⟨"pkg.legacy"⟩).bind "Port" ⟨⟨"pkg"⟩, "Address"⟩),
    (⟨"pkg"⟩,
      (Scope.empty.addRelative ⟨"pkg.service"⟩).bind "Address" ⟨⟨"pkg.types"⟩, "Number"⟩),
    (⟨"pkg.types"⟩, Scope.empty.addExternal "Number"), (⟨"pkg.legacy"⟩, .empty)]

/-- The pairs on the way of `Port`. -/
def forwardedPort : Nat → TypeKey
  | 0 => ⟨⟨"pkg.service"⟩, "Port"⟩
  | 1 => ⟨⟨"pkg"⟩, "Address"⟩
  | _ => ⟨⟨"pkg.types"⟩, "Number"⟩

theorem lookup_reexported_forwarding :
    (∀ i < 2, forwarding.Reexports (forwardedPort i) (forwardedPort (i + 1))) ∧
      forwarding.catalog.find? (forwardedPort 2) = some (.alias (.primitive .int)) ∧
      forwarding.lookup 2 ⟨⟨"pkg.service"⟩, "Port"⟩ =
        .found ⟨⟨"pkg.types"⟩, "Number"⟩ (.alias (.primitive .int)) := by
  have hchain : ∀ i < 2, forwarding.Reexports (forwardedPort i) (forwardedPort (i + 1)) := by
    intro i hi
    match i, hi with
    | 0, _ => exact ⟨rfl, _, rfl, List.not_mem_nil, rfl⟩
    | 1, _ => exact ⟨rfl, _, rfl, List.not_mem_nil, rfl⟩
  exact ⟨hchain, rfl, lookup_reexported forwarding forwardedPort 2 2 _ hchain rfl (Nat.le_refl 2)⟩

end CallSchema.Environment
