import Mathlib.Data.Finset.Card
import CallSchema.Proofs.Reachability

/-! # Saturation of lookups

A pair is never looked up inside its own lookup. So the lookups that are nested in each other are of
different pairs, up to a last one that is passed over, and hops beyond the number of pairs that
imports lead to make no difference.
-/

namespace CallSchema.Environment

/-- No step leads out of the given pairs. -/
def StepsInside (env : Environment) (pairs : Finset TypeKey) : Prop :=
  ∀ key ∈ pairs, ∀ next, env.Step key next → next ∈ pairs

/-- The pairs that are not being looked up. -/
def unopened (pairs : Finset TypeKey) (path : List TypeKey) : Finset TypeKey :=
  pairs.filter (· ∉ path)

variable {env : Environment} {pairs : Finset TypeKey} {path : List TypeKey} {key : TypeKey}

theorem card_unopened_cons (hk : key ∈ pairs) (hp : key ∉ path) :
    (unopened pairs (key :: path)).card < (unopened pairs path).card := by
  apply Finset.card_lt_card
  rw [Finset.ssubset_iff_of_subset]
  · exact ⟨key, by simp [unopened, hk, hp], by simp [unopened]⟩
  · intro other hother
    simp only [unopened, Finset.mem_filter, List.mem_cons, not_or] at hother ⊢
    exact ⟨hother.1, hother.2.2⟩

theorem search_saturates (hinside : env.StepsInside pairs) {hops more : Nat} (hk : key ∈ pairs)
    (hhops : (unopened pairs path).card ≤ hops) (hmore : (unopened pairs path).card ≤ more) :
    env.search hops path key = env.search more path key := by
  induction hops generalizing more path key with
  | zero =>
    have hp : key ∈ path := by
      by_contra hp
      have hlt := card_unopened_cons hk hp
      omega
    rw [search_of_mem 0 hp, search_of_mem more hp]
  | succ left ih =>
    by_cases hp : key ∈ path
    · rw [search_of_mem (left + 1) hp, search_of_mem more hp]
    · cases hs : env.settled? key with
      | some answer => rw [search_of_settled (left + 1) hp hs, search_of_settled more hp hs]
      | none =>
        have hlt := card_unopened_cons hk hp
        obtain ⟨left', rfl⟩ := Nat.exists_eq_add_one_of_ne_zero (show more ≠ 0 by omega)
        rw [search_succ left hp hs, search_succ left' hp hs]
        refine congrArg Lookup.first (List.map_congr_left fun next hnext => ?_)
        exact ih (hinside key hk next (step_of_mem_steps hs hnext)) (by omega) (by omega)

/-- A lookup with the hops it has left and the table it starts from. -/
structure Call where
  hops : Nat
  key : TypeKey
  seen : Seen

/-- A lookup makes another one: it is not passed over, has no answer of its own and a hop left, and
the pairs it leads to before the other one have no answer. -/
inductive Calls (env : Environment) : Call → Call → Prop
  | nested {left : Nat} {key next : TypeKey} {seen seen' : Seen} {before after : List TypeKey} :
      seen.covers key (left + 1) = false → env.settled? key = none →
      env.steps key = before ++ next :: after →
      firstFound (env.lookupIn left) before (Table.enter seen key (left + 1)) = (.missing, seen') →
      Calls env ⟨left + 1, key, seen⟩ ⟨left, next, seen'⟩

/-- The result of a lookup, from what the lookups that it makes come to. -/
def resultFrom (env : Environment) (look : Call → Lookup × Seen) (c : Call) : Lookup × Seen :=
  if c.seen.covers c.key c.hops then (.missing, c.seen)
  else
    match env.settled? c.key, c.hops with
    | some answer, _ => (answer, Table.enter c.seen c.key c.hops)
    | none, 0 => (.missing, Table.enter c.seen c.key 0)
    | none, left + 1 =>
      firstFound (fun key seen => look ⟨left, key, seen⟩) (env.steps c.key)
        (Table.enter c.seen c.key (left + 1))

/-- A lookup depends on no other lookups than those it makes. -/
theorem resultFrom_eq_lookupIn {look : Call → Lookup × Seen} {c : Call}
    (h : ∀ d, env.Calls c d → look d = env.lookupIn d.hops d.key d.seen) :
    env.resultFrom look c = env.lookupIn c.hops c.key c.seen := by
  obtain ⟨hops, key, seen⟩ := c
  unfold resultFrom
  cases hc : seen.covers key hops with
  | true => simp [lookupIn_of_covers hc]
  | false =>
    cases hs : env.settled? key with
    | some answer => simp [lookupIn_of_settled hc hs]
    | none =>
      cases hops with
      | zero => simp [lookupIn_zero hc hs]
      | succ left =>
        simp only [lookupIn_succ hc hs]
        exact firstFound_congr fun before next after seen' hsteps hbefore =>
          h ⟨left, next, seen'⟩ (.nested hc hs hsteps hbefore)

/-- The lookups on a chain are of different pairs, since the table covers those that are open. -/
theorem length_le_of_calls (hinside : env.StepsInside pairs) (path : List TypeKey) {c : Call}
    {rest : List Call} (hk : c.key ∈ pairs)
    (hpath : ∀ other ∈ path, c.seen.covers other c.hops = true)
    (h : List.IsChain env.Calls (c :: rest)) : rest.length ≤ (unopened pairs path).card := by
  induction rest generalizing c path with
  | nil => exact Nat.zero_le _
  | cons d rest ih =>
    obtain ⟨hcall, hrest⟩ := List.isChain_cons_cons.mp h
    cases hcall with
    | @nested left key next seen seen' before after hc hs hsteps hbefore =>
      have hp : key ∉ path := fun hp => by simp [hpath key hp] at hc
      have hnext : env.Step key next := step_of_mem_steps hs (by simp [hsteps])
      have hgrows := firstFound_preserves (Seen.Grows.refl left) Seen.Grows.trans
        (env.lookupIn_grows left) before (Table.enter seen key (left + 1))
      rw [hbefore] at hgrows
      have hopen : ∀ other ∈ key :: path, seen'.covers other left = true := fun other hother =>
        hgrows.covers other left (Seen.covers_opened hc hpath other hother)
      have hle := ih (key :: path) (hinside key hk next hnext) hopen hrest
      have hlt : (unopened pairs (key :: path)).card < (unopened pairs path).card :=
        card_unopened_cons hk hp
      simp only [List.length_cons]
      omega

/-- With as many hops as there are pairs that steps can lead to, a lookup has its final answer, and
lookups are never nested deeper than that, one more being passed over at once. -/
theorem lookup_saturates (env : Environment) (key : TypeKey) (pairs : Finset TypeKey)
    (hkey : key ∈ pairs) (hinside : env.StepsInside pairs) :
    (∀ hops more, pairs.card ≤ hops → pairs.card ≤ more →
        env.lookup hops key = env.lookup more key) ∧
      (∀ depth, pairs.card ≤ depth → depth < Nat.pow 2 64 →
        env.lookup depth key = env.lookup pairs.card key) ∧
      ∀ hops nested, List.IsChain env.Calls (⟨hops, key, []⟩ :: nested) →
        (⟨hops, key, []⟩ :: nested : List Call).length ≤ pairs.card + 1 := by
  have hall : unopened pairs [] = pairs := by simp [unopened]
  have hsame : ∀ hops more, pairs.card ≤ hops → pairs.card ≤ more →
      env.lookup hops key = env.lookup more key := fun hops more hhops hmore => by
    rw [← hall] at hhops hmore
    rw [← search_nil, ← search_nil]
    exact search_saturates hinside hkey hhops hmore
  refine ⟨hsame, fun depth hdepth _ => ?_, fun hops nested h => ?_⟩
  · exact hsame depth pairs.card hdepth (Nat.le_refl _)
  · have hle := length_le_of_calls hinside [] hkey (by simp) h
    rw [hall] at hle
    exact Nat.succ_le_succ hle

/-- Two modules that import each other, one of which also imports a module that defines `Port`. -/
def circular : Environment where
  catalog := [(⟨⟨"pkg.base"⟩, "Port"⟩, .alias (.primitive .int))]
  scopes := [(⟨"pkg.a"⟩, (Scope.empty.addRelative ⟨"pkg.b"⟩).addRelative ⟨"pkg.base"⟩),
    (⟨"pkg.b"⟩, Scope.empty.addRelative ⟨"pkg.a"⟩)]

/-- The pairs that steps lead to from `Port` in the first module. -/
def circularPorts : Finset TypeKey :=
  {⟨⟨"pkg.a"⟩, "Port"⟩, ⟨⟨"pkg.b"⟩, "Port"⟩, ⟨⟨"pkg.base"⟩, "Port"⟩}

theorem circular_stepsInside : circular.StepsInside circularPorts := by
  intro key hkey next hstep
  have hnext := hstep.mem_steps
  simp only [circularPorts, Finset.mem_insert, Finset.mem_singleton] at hkey ⊢
  rcases hkey with rfl | rfl | rfl
  · rcases List.mem_cons.mp hnext with rfl | hnext
    · exact .inr (.inl rfl)
    · exact .inr (.inr (List.mem_singleton.mp hnext))
  · exact .inl (List.mem_singleton.mp hnext)
  · cases hnext

theorem lookup_saturates_circular :
    ⟨⟨"pkg.a"⟩, "Port"⟩ ∈ circularPorts ∧ circular.StepsInside circularPorts ∧
      circular.lookup 18446744073709551615 ⟨⟨"pkg.a"⟩, "Port"⟩ =
        .found ⟨⟨"pkg.base"⟩, "Port"⟩ (.alias (.primitive .int)) := by
  have hkey : (⟨⟨"pkg.a"⟩, "Port"⟩ : TypeKey) ∈ circularPorts := by simp [circularPorts]
  have hcard : circularPorts.card = 3 := rfl
  refine ⟨hkey, circular_stepsInside, ?_⟩
  have hsame := (lookup_saturates circular _ circularPorts hkey circular_stepsInside).2.1
    18446744073709551615 (by rw [hcard]; decide) (by decide)
  rw [hsame, hcard]
  rfl

end CallSchema.Environment
