import CallSchema.Proofs.Memo

/-! # What a call leaves behind

A definition is taken off the stack by its place and not by its name, after a call that may have
failed anywhere within lists, unions or records. It is the right one because every call, those made
by other calls included, leaves the stack as it found it. The memo only grows, also in the middle of
a resolution, and only by schemas that do not depend on what was being resolved.
-/

namespace CallSchema

namespace Resolver

/-- What a call does to a resolver, whether it succeeds or fails. -/
structure Restored (env : Environment) (hops : Nat) (before after : Resolver) : Prop where
  visiting_eq : after.visiting = before.visiting
  kept : ∀ key s, before.memo.find? key = some s → after.memo.find? key = some s
  /-- What is learned is the schema of a definition that was not being resolved, as it is found
  without a memo and with nothing being resolved. -/
  learned : ∀ key s, before.memo.find? key = none → after.memo.find? key = some s →
    key ∈ env.catalog.keys ∧ key ∉ before.visiting ∧
      Direct.reference env hops [] key.module key.name = .ok s

/-- The resolver that goes on to resolve `key`. -/
def entered (r : Resolver) (key : TypeKey) : Resolver :=
  { r with visiting := r.visiting ++ [key] }

variable {env : Environment} {hops : Nat} {r before after : Resolver}

namespace Restored

theorem refl (r : Resolver) : r.Restored env hops r := by
  refine ⟨rfl, fun _ _ h => h, fun key s hnone hsome => ?_⟩
  rw [hnone] at hsome
  cases hsome

theorem trans {middle : Resolver} (h : before.Restored env hops middle)
    (h' : middle.Restored env hops after) : before.Restored env hops after := by
  refine ⟨h'.visiting_eq.trans h.visiting_eq, fun key s hs => h'.kept key s (h.kept key s hs),
    fun key s hnone hsome => ?_⟩
  cases hm : middle.memo.find? key with
  | none =>
    rw [← h.visiting_eq]
    exact h'.learned key s hm hsome
  | some s' =>
    cases (h'.kept key s' hm).symm.trans hsome
    exact h.learned key s hnone hm

theorem justified (h : before.Restored env hops after) (hb : before.Justified env hops) :
    after.Justified env hops := by
  intro key s hs
  cases hm : before.memo.find? key with
  | some s' =>
    cases (h.kept key s' hm).symm.trans hs
    exact hb key s hm
  | none =>
    obtain ⟨hkey, -, hdirect⟩ := h.learned key s hm hs
    obtain ⟨d, hd⟩ := Table.exists_find? hkey
    exact ⟨d, hd, (Direct.reference_own_eq_ok_iff hd).mp hdirect⟩

/-- What restores the stack that a definition was put on also restores the one below. -/
theorem leave {key : TypeKey} (h : (r.entered key).Restored env hops after) :
    r.Restored env hops { after with visiting := after.visiting.dropLast } := by
  refine ⟨?_, h.kept, fun key' s hnone hsome => ?_⟩
  · rw [h.visiting_eq]
    exact List.dropLast_concat
  · obtain ⟨hkey, hfree, hdirect⟩ := h.learned key' s hnone hsome
    exact ⟨hkey, fun hmem => hfree (List.mem_append_left _ hmem), hdirect⟩

theorem remember {key : TypeKey} {d : Definition} {s : Schema}
    (h : before.Restored env hops after) (hd : env.catalog.find? key = some d)
    (hm : before.memo.find? key = none) (hk : key ∉ before.visiting)
    (hs : DefinitionResolves env hops key.module d s) :
    before.Restored env hops { after with memo := after.memo.enter key s } := by
  refine ⟨h.visiting_eq, fun key' s' hs' => ?_, fun key' s' hnone hsome => ?_⟩
  · have hne : key ≠ key' := by
      rintro rfl
      rw [hm] at hs'
      cases hs'
    rw [Table.find?_enter_of_ne _ _ hne]
    exact h.kept key' s' hs'
  · by_cases heq : key = key'
    · subst heq
      rw [Table.find?_enter_self] at hsome
      cases hsome
      exact ⟨Table.mem_keys_of_find? hd, hk, (Direct.reference_own_eq_ok_iff hd).mpr hs⟩
    · rw [Table.find?_enter_of_ne _ _ heq] at hsome
      exact h.learned key' s' hnone hsome

end Restored

end Resolver

/-- A definition is taken off the stack again, and its schema is remembered if it has one. -/
theorem Resolution.visit_restored {env : Environment} {hops : Nat} {r : Resolver} {key : TypeKey}
    {d : Definition} {body : Resolution Schema} {result : Except Fault Schema}
    (hd : env.catalog.find? key = some d) (hm : r.memo.find? key = none) (hk : key ∉ r.visiting)
    (hbody : Agrees ((r.entered key).Restored env hops) body result)
    (hok : ∀ s, result = .ok s → DefinitionResolves env hops key.module d s) :
    r.Restored env hops ((visit key body).run r).2 := by
  obtain ⟨hresult, hafter⟩ := hbody (r.entered key) (.refl _)
  unfold Resolver.entered at hresult
  rw [run_visit, hresult]
  cases result with
  | error fault => exact hafter.leave
  | ok s => exact hafter.leave.remember hd hm hk (hok s rfl)

namespace Resolver

/-- The states from which names of module `m` are resolved. -/
structure Ready (env : Environment) (hops fuel : Nat) (m : ModulePath) (names : List String)
    (r : Resolver) : Prop where
  justified : r.Justified env hops
  fuelled : Resolution.Suffices env fuel r.visiting
  reaches : ∀ name ∈ names, Reaches env hops r.visiting m name

namespace Ready

variable {env : Environment} {hops fuel : Nat} {m : ModulePath} {names : List String} {r : Resolver}

theorem mono {part : List String} (h : r.Ready env hops fuel m names) (hpart : part ⊆ names) :
    r.Ready env hops fuel m part :=
  ⟨h.justified, h.fuelled, fun name hn => h.reaches name (hpart hn)⟩

theorem restored {after : Resolver} (h : r.Ready env hops fuel m names)
    (hafter : r.Restored env hops after) : after.Ready env hops fuel m names := by
  refine ⟨hafter.justified h.justified, ?_, ?_⟩
  · rw [hafter.visiting_eq]
    exact h.fuelled
  · rw [hafter.visiting_eq]
    exact h.reaches

/-- Entering the definition of a name, a resolver is ready for the names in the definition. -/
theorem enter {name : String} {key : TypeKey} {d : Definition}
    (h : r.Ready env hops (fuel + 1) m names) (hn : name ∈ names)
    (hl : env.lookup hops ⟨m, name⟩ = .found key d) (hk : key ∉ r.visiting) :
    (r.entered key).Ready env hops fuel key.module d.references :=
  ⟨h.justified, h.fuelled.enter (Environment.lookup_found hl) hk,
    fun _ hi => (h.reaches name hn).enter hl hi⟩

/-- Resolving a name restores the state. The induction is on the fuel: the definition of the name is
resolved on the stack that it extends, and its schema enters the memo once that stack is back. -/
theorem reference_agrees {name : String} (h : r.Ready env hops fuel m names) (hn : name ∈ names) :
    Agrees (r.Restored env hops) (Resolution.reference env hops fuel m name)
      (Direct.reference env hops r.visiting m name) := by
  induction fuel generalizing m names name r with
  | zero => exact absurd rfl h.fuelled.pos
  | succ fuel ih =>
    intro now hnow
    have hready := h.restored hnow
    have hresult := Resolution.reference_agrees hready.fuelled (hready.reaches name hn) now
      ⟨rfl, hready.justified⟩
    rw [← hnow.visiting_eq]
    refine ⟨hresult.1, hnow.trans ?_⟩
    cases hl : env.lookup hops ⟨m, name⟩ with
    | external | missing =>
      rw [Resolution.reference, hl]
      exact .refl now
    | found key d =>
      cases hm : now.memo.find? key with
      | some s =>
        rw [Resolution.run_reference_of_memo hl hm]
        exact .refl now
      | none =>
        by_cases hk : key ∈ now.visiting
        · rw [Resolution.run_reference_of_mem hl hm hk]
          exact .refl now
        · rw [Resolution.run_reference_of_not_mem hl hm hk]
          have hinner := hready.enter hn hl hk
          refine Resolution.visit_restored (Environment.lookup_found hl) hm hk
            (Resolution.expandDefinition_agrees fun _ hi => ih hinner hi) fun s hs => ?_
          exact (Direct.expandDefinition_eq_ok_iff fun inner hi s =>
            Direct.reference_eq_ok_iff (hinner.reaches inner hi)).mp hs

theorem expand_agrees {e : TypeExpr} (h : r.Ready env hops fuel m names)
    (he : e.references ⊆ names) :
    Agrees (r.Restored env hops) (Resolution.expand (Resolution.reference env hops fuel) m e)
      (Direct.expand (Direct.reference env hops r.visiting m) m e) :=
  Resolution.expand_agrees fun _ hn => h.reference_agrees (he hn)

theorem after {α : Type} {x : Resolution α} {result : Except Fault α} {a : α} {now : Resolver}
    (h : r.Ready env hops fuel m names) (hx : Agrees (r.Restored env hops) x result)
    (hrun : x.run r = (.ok a, now)) : now.Ready env hops fuel m names := by
  have hafter := (hx r (.refl r)).2
  rw [hrun] at hafter
  exact h.restored hafter

end Ready

/-- A call that resolves an expression written in a module, from the state that it finds. The fuel
is what is left for definitions within definitions. -/
structure Activation where
  fuel : Nat
  module : ModulePath
  expr : TypeExpr
  start : Resolver

namespace Activation

/-- The result of the call and the state that it leaves. -/
def run (env : Environment) (hops : Nat) (a : Activation) : Except Fault Schema × Resolver :=
  (Resolution.expand (Resolution.reference env hops a.fuel) a.module a.expr).run a.start

/-- The calls that a call makes, each from the state that those before it leave. -/
inductive Calls (env : Environment) (hops : Nat) : Activation → Activation → Prop
  | item (fuel : Nat) (m : ModulePath) (item : TypeExpr) (r : Resolver) :
      Calls env hops ⟨fuel, m, .list item, r⟩ ⟨fuel, m, item, r⟩
  | key (fuel : Nat) (m : ModulePath) (key value : TypeExpr) (r : Resolver) :
      Calls env hops ⟨fuel, m, .dict key value, r⟩ ⟨fuel, m, key, r⟩
  | value {fuel : Nat} {m : ModulePath} {key value : TypeExpr} {keys : Schema} {r now : Resolver} :
      run env hops ⟨fuel, m, key, r⟩ = (.ok keys, now) → keys.isString →
      Calls env hops ⟨fuel, m, .dict key value, r⟩ ⟨fuel, m, value, now⟩
  | inner (fuel : Nat) (m : ModulePath) (inner : TypeExpr) (r : Resolver) :
      Calls env hops ⟨fuel, m, .optional inner, r⟩ ⟨fuel, m, inner, r⟩
  | absent {fuel : Nat} {m : ModulePath} {inner : TypeExpr} {schema : Schema} {r now : Resolver} :
      run env hops ⟨fuel, m, inner, r⟩ = (.ok schema, now) →
      Calls env hops ⟨fuel, m, .optional inner, r⟩ ⟨fuel, m, .none, now⟩
  | member {fuel : Nat} {m : ModulePath} {front rest : List TypeExpr} {e : TypeExpr}
      {schemas : List Schema} {r now : Resolver} :
      (Resolution.expandAll (Resolution.reference env hops fuel) m front).run r =
        (.ok schemas, now) →
      Calls env hops ⟨fuel, m, .union (front ++ e :: rest), r⟩ ⟨fuel, m, e, now⟩
  | body {fuel : Nat} {m : ModulePath} {name : String} {key : TypeKey} {body : TypeExpr}
      {r : Resolver} :
      env.lookup hops ⟨m, name⟩ = .found key (.alias body) → r.memo.find? key = none →
      key ∉ r.visiting →
      Calls env hops ⟨fuel + 1, m, .reference name, r⟩ ⟨fuel, key.module, body, r.entered key⟩
  | field {fuel : Nat} {m : ModulePath} {name field : String} {key : TypeKey} {total : Bool}
      {front rest : Table String TypeExpr} {e : TypeExpr} {properties : Table String Schema}
      {r now : Resolver} :
      env.lookup hops ⟨m, name⟩ = .found key (.record ⟨total, front ++ (field, e) :: rest⟩) →
      r.memo.find? key = none → key ∉ r.visiting →
      (Resolution.expandFields (Resolution.reference env hops fuel) key.module front).run
        (r.entered key) = (.ok properties, now) →
      Calls env hops ⟨fuel + 1, m, .reference name, r⟩ ⟨fuel, key.module, e, now⟩

/-- The calls that are made at all: on a resolver between calls, and by other calls. -/
inductive Made (env : Environment) (hops : Nat) : Activation → Prop
  | top {r : Resolver} (m : ModulePath) (e : TypeExpr) : r.Reachable env hops →
      Made env hops ⟨env.catalog.length + 1, m, e, r⟩
  | nested {a b : Activation} : Made env hops a → Calls env hops a b → Made env hops b

variable {env : Environment} {hops : Nat} {a b : Activation}

/-- Whether the state that a call finds is one for the names in its expression. -/
def IsReady (env : Environment) (hops : Nat) (a : Activation) : Prop :=
  a.start.Ready env hops a.fuel a.module a.expr.references

theorem Calls.isReady (h : Calls env hops a b) (ha : a.IsReady env hops) : b.IsReady env hops := by
  cases h with
  | item | inner => exact ha
  | key => exact ha.mono (List.subset_append_left _ _)
  | value hrun =>
    have hkey := ha.expand_agrees (List.subset_append_left _ _)
    exact (ha.after hkey hrun).mono (List.subset_append_right _ _)
  | @absent fuel m inner schema r now hrun =>
    have hinner := ha.expand_agrees (e := inner) (List.Subset.refl _)
    exact (ha.after hinner hrun).mono (List.nil_subset _)
  | @member fuel m front rest e schemas r now hrun =>
    have hpart : ∀ e' ∈ front ++ e :: rest,
        e'.references ⊆ (TypeExpr.union (front ++ e :: rest)).references :=
      fun e' he' _ hn => TypeExpr.mem_referencesAll.mpr ⟨e', he', hn⟩
    have hfront := Resolution.expandAll_agrees fun e' he' =>
      ha.expand_agrees (hpart e' (List.mem_append_left _ he'))
    exact (ha.after hfront hrun).mono (hpart e (by simp))
  | body hl _ hk => exact ha.enter List.mem_cons_self hl hk
  | @field fuel m name field key total front rest e properties r now hl _ hk hrun =>
    have hready := ha.enter List.mem_cons_self hl hk
    have hpart : ∀ e' ∈ (front ++ (field, e) :: rest).map Prod.snd,
        e'.references ⊆ (Definition.record ⟨total, front ++ (field, e) :: rest⟩).references :=
      fun e' he' _ hn => TypeExpr.mem_referencesAll.mpr ⟨e', he', hn⟩
    have hfront := Resolution.expandFields_agrees fun e' he' =>
      hready.expand_agrees (hpart e' (by rw [List.map_append]; exact List.mem_append_left _ he'))
    exact (hready.after hfront hrun).mono (hpart e (by simp))

theorem Made.isReady (h : a.Made env hops) : a.IsReady env hops := by
  induction h with
  | @top r m e hr =>
    have hvalid := hr.valid
    refine ⟨hvalid.justified, ?_, ?_⟩
    · rw [hvalid.visiting_eq]
      exact Resolution.suffices_nil
    · rw [hvalid.visiting_eq]
      exact fun name _ => reaches_nil m name
  | nested _ hcall ih => exact hcall.isReady ih

end Activation

namespace Reachable

variable {env : Environment} {hops : Nat} {r : Resolver}

theorem resolve (h : r.Reachable env hops) (m : ModulePath) (e : TypeExpr) :
    ((env.resolve hops m e).run r).2.Reachable env hops := by
  have hcall := h.call (.resolve m e)
  rw [Call.answer, run_bind] at hcall
  cases hresult : ((env.resolve hops m e).run r).1 with
  | error fault =>
    rw [hresult] at hcall
    exact hcall
  | ok s =>
    rw [hresult] at hcall
    exact hcall

/-- The types of parameters are resolved by one call after the other. -/
theorem compileParameters (h : r.Reachable env hops) (m : ModulePath) (input : InputSchema)
    (ps : List Parameter) :
    ((env.compileParameters hops m input ps).run r).2.Reachable env hops := by
  induction ps generalizing r input with
  | nil => exact h
  | cons p ps ih =>
    have hnext := h.resolve m p.type
    rw [Environment.compileParameters, run_bind]
    cases ((env.resolve hops m p.type).run r).1 with
    | error fault => exact hnext
    | ok schema => exact ih hnext (input.add p schema)

end Reachable

/-- A resolver is given back as it was found. Between calls, those for the parameters of a signature
included, nothing is being resolved; and every call, made by a caller or by another call, successful
or not, leaves the definitions being resolved as they were, in their order, keeps what was
remembered, and remembers besides only schemas of definitions that were not being resolved, which do
not depend on the call. -/
theorem calls_restore (env : Environment) (hops : Nat) :
    (∀ r : Resolver, r.Reachable env hops → r.visiting = [] ∧ ∀ m input ps,
      ((env.compileParameters hops m input ps).run r).2.Reachable env hops) ∧
      ∀ a : Activation, a.Made env hops → a.start.Restored env hops (a.run env hops).2 := by
  refine ⟨fun r hr => ⟨hr.valid.visiting_eq, hr.compileParameters⟩, fun a ha => ?_⟩
  have hagrees := ha.isReady.expand_agrees (List.Subset.refl _)
  exact (hagrees a.start (.refl _)).2

end Resolver

/-- A type that is one of its own alternatives, after one that resolves. -/
def Environment.knotted : Environment where
  catalog := [
    (⟨⟨"m"⟩, "Knot"⟩, .alias (.union [.reference "Plain", .reference "Knot"])),
    (⟨⟨"m"⟩, "Plain"⟩, .alias (.primitive .int))]
  scopes := []

/-- The call for what `Knot` stands for, made while `Knot` is being resolved. -/
def Resolver.Activation.knot : Resolver.Activation :=
  ⟨2, ⟨"m"⟩, .union [.reference "Plain", .reference "Knot"], Resolver.fresh.entered ⟨⟨"m"⟩, "Knot"⟩⟩

theorem Resolver.calls_restore_knotted :
    (Activation.knot.run .knotted 0).1 = .error (.cyclicDefinition ["m.Knot", "m.Knot"]) ∧
      (Activation.knot.run .knotted 0).2.memo.find? ⟨⟨"m"⟩, "Plain"⟩ = some .integer ∧
      (Activation.knot.run .knotted 0).2.visiting = [⟨⟨"m"⟩, "Knot"⟩] ∧
      Direct.reference .knotted 0 [] ⟨"m"⟩ "Plain" = .ok .integer ∧
      ((Environment.knotted.resolve 0 ⟨"m"⟩ (.reference "Knot")).run .fresh).2.visiting = [] := by
  obtain ⟨hidle, hcalls⟩ := Resolver.calls_restore .knotted 0
  have hlookup : Environment.knotted.lookup 0 ⟨⟨"m"⟩, "Knot"⟩ = .found ⟨⟨"m"⟩, "Knot"⟩
      (.alias (.union [.reference "Plain", .reference "Knot"])) := rfl
  have hmade : Activation.knot.Made .knotted 0 :=
    .nested (.top ⟨"m"⟩ (.reference "Knot") .fresh) (.body hlookup rfl List.not_mem_nil)
  have hplain : (Activation.knot.run .knotted 0).2.memo.find? ⟨⟨"m"⟩, "Plain"⟩ =
      some .integer := rfl
  have hknot := hcalls Activation.knot hmade
  refine ⟨rfl, hplain, hknot.visiting_eq, (hknot.learned _ _ rfl hplain).2.2, ?_⟩
  exact (hidle _ (.call (.resolve ⟨"m"⟩ (.reference "Knot")) .fresh)).1

end CallSchema
