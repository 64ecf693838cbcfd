import CallSchema.Proofs.Derivation

/-! # The memo is invisible

A resolver enters a schema into its memo only when the schema has a derivation, and a definition
with a derivation lies on no cycle. Whatever a resolver was asked before, it therefore answers as a
new one does, and as resolution without a memo does.
-/

namespace CallSchema

/-- On every state with the invariant a computation gives the result and keeps the invariant. -/
def Agrees {α : Type} (Inv : Resolver → Prop) (x : Resolution α) (result : Except Fault α) : Prop :=
  ∀ r, Inv r → (x.run r).1 = result ∧ Inv (x.run r).2

section

variable {Inv : Resolver → Prop} {α β : Type}

theorem agrees_pure (a : α) : Agrees Inv (pure a) (.ok a) :=
  fun _ hr => ⟨rfl, hr⟩

theorem agrees_throw (fault : Fault) : Agrees Inv (throw fault : Resolution α) (.error fault) :=
  fun _ hr => ⟨rfl, hr⟩

theorem agrees_lift (result : Except Fault α) : Agrees Inv (ExceptT.mk (pure result)) result :=
  fun _ hr => ⟨rfl, hr⟩

theorem run_bind (x : Resolution α) (f : α → Resolution β) (r : Resolver) :
    (x >>= f).run r =
      match (x.run r).1 with
      | .ok a => (f a).run (x.run r).2
      | .error fault => (.error fault, (x.run r).2) := by
  rw [ExceptT.run_bind]
  simp only [bind, StateT.bind]
  generalize x.run r = p
  obtain ⟨result, after⟩ := p
  cases result <;> rfl

theorem run_get_bind (f : Resolver → Resolution β) (r : Resolver) :
    (get >>= f).run r = (f r).run r :=
  rfl

theorem Agrees.bind {x : Resolution α} {result : Except Fault α} {f : α → Resolution β}
    {g : α → Except Fault β} (hx : Agrees Inv x result)
    (hf : ∀ a, Agrees Inv (f a) (g a)) : Agrees Inv (x >>= f) (result >>= g) := by
  intro r hr
  obtain ⟨hresult, hafter⟩ := hx r hr
  cases result with
  | error fault =>
    rw [run_bind, hresult]
    exact ⟨rfl, hafter⟩
  | ok a =>
    rw [run_bind, hresult]
    exact hf a _ hafter

end

namespace Resolution

variable {Inv : Resolver → Prop} {named : ModulePath → String → Resolution Schema}
  {direct : String → Except Fault Schema} {m : ModulePath}

theorem expandAll_agrees {es : List TypeExpr}
    (h : ∀ e ∈ es, Agrees Inv (expand named m e) (Direct.expand direct m e)) :
    Agrees Inv (expandAll named m es) (Direct.expandAll direct m es) := by
  induction es with
  | nil => exact agrees_pure []
  | cons e es ih =>
    refine (h e List.mem_cons_self).bind fun schema => ?_
    refine (ih fun e he => h e (List.mem_cons_of_mem _ he)).bind fun schemas => ?_
    exact agrees_pure (schema :: schemas)

theorem expand_agrees {e : TypeExpr}
    (h : ∀ name ∈ e.references, Agrees Inv (named m name) (direct name)) :
    Agrees Inv (expand named m e) (Direct.expand direct m e) := by
  induction e with
  | primitive p => exact agrees_pure _
  | none => exact agrees_pure _
  | any => exact agrees_pure _
  | list item ih => exact (ih h).bind fun items => agrees_pure _
  | dict key value ihk ihv =>
    have hk := fun name hn => h name (List.mem_append_left _ hn)
    have hv := fun name hn => h name (List.mem_append_right _ hn)
    refine (ihk hk).bind fun keys => ?_
    split
    · exact (ihv hv).bind fun values => agrees_pure _
    · exact agrees_throw _
  | optional inner ih => exact (ih h).bind fun schema => agrees_pure _
  | union members ih =>
    have hm : ∀ e ∈ members, Agrees Inv (expand named m e) (Direct.expand direct m e) :=
      fun e he => ih e he fun name hn => h name (TypeExpr.mem_referencesAll.mpr ⟨e, he, hn⟩)
    exact (expandAll_agrees hm).bind fun schemas => agrees_pure _
  | literal members => exact (agrees_lift _).bind fun values => agrees_pure _
  | reference name => exact h name (List.mem_singleton.mpr rfl)
  | external name => exact agrees_throw _
  | unsupported name => exact agrees_throw _

theorem expandFields_agrees {fields : Table String TypeExpr}
    (h : ∀ e ∈ fields.map Prod.snd, Agrees Inv (expand named m e) (Direct.expand direct m e)) :
    Agrees Inv (expandFields named m fields) (do
      let schemas ← Direct.expandAll direct m (fields.map Prod.snd)
      .ok (fields.keys.zip schemas)) := by
  induction fields with
  | nil => exact agrees_pure []
  | cons field fields ih =>
    have hsplit : (do
        let schemas ← Direct.expandAll direct m ((field :: fields).map Prod.snd)
        .ok ((Table.keys (field :: fields)).zip schemas)) = (do
        let schema ← Direct.expand direct m field.2
        let properties ← (do
          let schemas ← Direct.expandAll direct m (fields.map Prod.snd)
          .ok ((Table.keys fields).zip schemas))
        Except.ok ((field.1, schema) :: properties)) := by
      rw [List.map_cons, Direct.expandAll]
      cases Direct.expand direct m field.2 with
      | error fault => rfl
      | ok schema => cases Direct.expandAll direct m (fields.map Prod.snd) <;> rfl
    rw [hsplit]
    refine (h field.2 List.mem_cons_self).bind fun schema => ?_
    exact (ih fun e he => h e (List.mem_cons_of_mem _ he)).bind fun properties => agrees_pure _

theorem expandDefinition_agrees {d : Definition}
    (h : ∀ name ∈ d.references, Agrees Inv (named m name) (direct name)) :
    Agrees Inv (expandDefinition named m d) (Direct.expandDefinition direct m d) := by
  match d with
  | .alias body => exact expand_agrees h
  | .record r =>
    have hf : ∀ e ∈ r.fields.map Prod.snd,
        Agrees Inv (expand named m e) (Direct.expand direct m e) := fun e he =>
      expand_agrees fun name hn => h name (TypeExpr.mem_referencesAll.mpr ⟨e, he, hn⟩)
    have hsplit : Direct.expandDefinition direct m (.record r) = (do
        let properties ← (do
          let schemas ← Direct.expandAll direct m (r.fields.map Prod.snd)
          .ok (r.fields.keys.zip schemas))
        .ok (.record properties (if r.total then r.fields.keys else []))) := by
      rw [Direct.expandDefinition]
      cases Direct.expandAll direct m (r.fields.map Prod.snd) <;> rfl
    rw [hsplit]
    exact (expandFields_agrees hf).bind fun properties => agrees_pure _
  | .invalid fault => exact agrees_throw fault

end Resolution

/-- Every schema in the memo has a derivation. -/
def Resolver.Justified (env : Environment) (hops : Nat) (r : Resolver) : Prop :=
  ∀ key s, r.memo.find? key = some s →
    ∃ d, env.catalog.find? key = some d ∧ DefinitionResolves env hops key.module d s

/-- The states of a resolver while the definitions `visiting` are being resolved. -/
structure Resolver.Valid (env : Environment) (hops : Nat) (visiting : List TypeKey)
    (r : Resolver) : Prop where
  visiting_eq : r.visiting = visiting
  justified : r.Justified env hops

theorem Resolver.fresh_valid (env : Environment) (hops : Nat) : Resolver.fresh.Valid env hops [] :=
  ⟨rfl, fun _ _ h => by cases h⟩

namespace Resolution

variable {env : Environment} {hops : Nat}

theorem run_visit (key : TypeKey) (body : Resolution Schema) (r : Resolver) :
    (visit key body).run r =
      let after := (body.run { r with visiting := r.visiting ++ [key] }).2
      let left := { after with visiting := after.visiting.dropLast }
      match (body.run { r with visiting := r.visiting ++ [key] }).1 with
      | .ok s => (.ok s, { left with memo := left.memo.enter key s })
      | .error fault => (.error fault, left) := by
  unfold visit
  rw [ExceptT.run_mk]
  generalize body.run { r with visiting := r.visiting ++ [key] } = p
  obtain ⟨result, after⟩ := p
  cases result <;> rfl

/-- Resolving a definition leaves the stack as it was and remembers only what has a derivation. -/
theorem visit_agrees {visiting : List TypeKey} {key : TypeKey} {d : Definition}
    {body : Resolution Schema} {result : Except Fault Schema}
    (hd : env.catalog.find? key = some d)
    (hbody : Agrees (Resolver.Valid env hops (visiting ++ [key])) body result)
    (hok : ∀ s, result = .ok s → DefinitionResolves env hops key.module d s) :
    Agrees (Resolver.Valid env hops visiting) (visit key body) result := by
  intro r hr
  have henter : Resolver.Valid env hops (visiting ++ [key])
      { r with visiting := r.visiting ++ [key] } := ⟨by rw [hr.visiting_eq], hr.justified⟩
  obtain ⟨hresult, hafter⟩ := hbody _ henter
  have hleave : ({ (body.run { r with visiting := r.visiting ++ [key] }).2 with
      visiting := (body.run { r with visiting := r.visiting ++ [key] }).2.visiting.dropLast } :
      Resolver).Valid env hops visiting :=
    ⟨by simp [hafter.visiting_eq], hafter.justified⟩
  rw [run_visit, hresult]
  cases result with
  | error fault => exact ⟨rfl, hleave⟩
  | ok s =>
    refine ⟨rfl, hleave.visiting_eq, fun key' s' hfind => ?_⟩
    by_cases hk : key = key'
    · subst hk
      rw [Table.find?_enter_self] at hfind
      cases hfind
      exact ⟨d, hd, hok s rfl⟩
    · rw [Table.find?_enter_of_ne _ _ hk] at hfind
      exact hafter.justified key' s' hfind

section

variable {fuel : Nat} {m : ModulePath} {name : String} {key : TypeKey} {d : Definition}
  {r : Resolver} (hl : env.lookup hops ⟨m, name⟩ = .found key d)

include hl

theorem run_reference_of_memo {s : Schema} (hm : r.memo.find? key = some s) :
    (reference env hops (fuel + 1) m name).run r = (.ok s, r) := by
  simp only [reference, hl, run_get_bind, hm]
  rfl

theorem run_reference_of_mem (hm : r.memo.find? key = none) (hk : key ∈ r.visiting) :
    (reference env hops (fuel + 1) m name).run r = (.error (cycle r.visiting key), r) := by
  simp only [reference, hl, run_get_bind, hm, hk]
  rfl

theorem run_reference_of_not_mem (hm : r.memo.find? key = none) (hk : key ∉ r.visiting) :
    (reference env hops (fuel + 1) m name).run r =
      (visit key (expandDefinition (reference env hops fuel) key.module d)).run r := by
  simp only [reference, hl, run_get_bind, hm, hk]
  rfl

end

/-- The fuel lasts: no definition is entered twice on the way to another, and there is fuel for each
of the others. -/
structure Suffices (env : Environment) (fuel : Nat) (visiting : List TypeKey) : Prop where
  nodup : visiting.Nodup
  subset : visiting ⊆ env.catalog.keys
  length_lt : env.catalog.length < fuel + visiting.length

theorem suffices_nil : Suffices env (env.catalog.length + 1) [] :=
  ⟨List.nodup_nil, List.nil_subset _, Nat.lt_succ_self _⟩

theorem Suffices.pos {fuel : Nat} {visiting : List TypeKey} (h : Suffices env fuel visiting) :
    fuel ≠ 0 := by
  have hlen := h.nodup.length_le_of_subset h.subset
  simp only [Table.keys, List.length_map] at hlen
  have hlt := h.length_lt
  omega

theorem Suffices.enter {fuel : Nat} {visiting : List TypeKey} {key : TypeKey} {d : Definition}
    (h : Suffices env (fuel + 1) visiting) (hd : env.catalog.find? key = some d)
    (hk : key ∉ visiting) : Suffices env fuel (visiting ++ [key]) := by
  constructor
  · exact h.nodup.append (List.nodup_singleton key) (List.disjoint_singleton.mpr hk)
  · refine List.append_subset.mpr ⟨h.subset, ?_⟩
    exact List.cons_subset.mpr ⟨Table.mem_keys_of_find? hd, List.nil_subset _⟩
  · have hlt := h.length_lt
    simp only [List.length_append, List.length_singleton]
    omega

theorem reference_agrees {fuel : Nat} {visiting : List TypeKey} {m : ModulePath} {name : String}
    (hfuel : Suffices env fuel visiting) (hreach : Reaches env hops visiting m name) :
    Agrees (Resolver.Valid env hops visiting) (reference env hops fuel m name)
      (Direct.reference env hops visiting m name) := by
  induction fuel generalizing visiting m name with
  | zero => exact absurd rfl hfuel.pos
  | succ fuel ih =>
    intro r hr
    cases hl : env.lookup hops ⟨m, name⟩ with
    | external =>
      rw [Direct.reference_of_external visiting hl, reference, hl]
      exact agrees_throw _ r hr
    | missing =>
      rw [Direct.reference_of_missing visiting hl, reference, hl]
      exact agrees_throw _ r hr
    | found key d =>
      have hd := Environment.lookup_found hl
      cases hm : r.memo.find? key with
      | some s =>
        -- A remembered schema has a derivation, so that no stack can stand in its way.
        obtain ⟨d', hd', hs⟩ := hr.justified key s hm
        cases hd.symm.trans hd'
        rw [run_reference_of_memo hl hm, (Direct.reference_eq_ok_iff hreach).mpr
          (resolves_reference_iff.mpr ⟨key, d, hl, hs⟩)]
        exact ⟨rfl, hr⟩
      | none =>
        rw [Direct.reference_of_found visiting hl, ← hr.visiting_eq]
        by_cases hk : key ∈ r.visiting
        · rw [run_reference_of_mem hl hm hk, if_pos hk]
          exact ⟨rfl, hr.visiting_eq ▸ hr⟩
        · rw [run_reference_of_not_mem hl hm hk, if_neg hk, hr.visiting_eq]
          rw [hr.visiting_eq] at hk
          have hinner : ∀ inner ∈ d.references,
              Agrees (Resolver.Valid env hops (visiting ++ [key]))
                (reference env hops fuel key.module inner)
                (Direct.reference env hops (visiting ++ [key]) key.module inner) :=
            fun inner hi => ih (hfuel.enter hd hk) (hreach.enter hl hi)
          refine visit_agrees hd (expandDefinition_agrees hinner) (fun s hs => ?_) r hr
          exact (Direct.expandDefinition_eq_ok_iff fun inner hi s =>
            Direct.reference_eq_ok_iff (hreach.enter hl hi)).mp hs

end Resolution

section

variable {env : Environment} {hops : Nat}

theorem resolve_agrees (m : ModulePath) (e : TypeExpr) :
    Agrees (Resolver.Valid env hops []) (env.resolve hops m e) (Direct.resolve env hops m e) :=
  Resolution.expand_agrees fun name _ =>
    Resolution.reference_agrees Resolution.suffices_nil (reaches_nil m name)

/-- A new resolver answers as resolution without a memo does. -/
theorem run_resolve_fresh (m : ModulePath) (e : TypeExpr) :
    ((env.resolve hops m e).run .fresh).1 = Direct.resolve env hops m e :=
  (resolve_agrees m e .fresh (Resolver.fresh_valid env hops)).1

theorem compileParameters_agrees (m : ModulePath) (input : InputSchema) (ps : List Parameter) :
    Agrees (Resolver.Valid env hops []) (env.compileParameters hops m input ps)
      (Direct.compileParameters env hops m input ps) := by
  induction ps generalizing input with
  | nil => exact agrees_pure input
  | cons p ps ih => exact (resolve_agrees m p.type).bind fun schema => ih (input.add p schema)

theorem compileFunction_agrees (s : Signature) :
    Agrees (Resolver.Valid env hops []) (env.compileFunction hops s)
      (Direct.compileFunction env hops s) :=
  (compileParameters_agrees s.module .empty s.parameters).bind fun _ =>
    (resolve_agrees s.module s.returns).bind fun _ => agrees_pure _

end

namespace Resolver

/-- What a resolver can be asked for. -/
inductive Call where
  | resolve (m : ModulePath) (e : TypeExpr)
  | compile (s : Signature)

inductive Answer where
  | schema (s : Schema)
  | function (s : FunctionSchema)

/-- The answer of a resolver, which may learn from it. -/
def Call.answer (env : Environment) (hops : Nat) : Call → Resolution Answer
  | .resolve m e => do
    let s ← env.resolve hops m e
    pure (.schema s)
  | .compile s => do
    let f ← env.compileFunction hops s
    pure (.function f)

/-- The answer without a memo. -/
def Call.directAnswer (env : Environment) (hops : Nat) : Call → Except Fault Answer
  | .resolve m e => do
    let s ← Direct.resolve env hops m e
    .ok (.schema s)
  | .compile s => do
    let f ← Direct.compileFunction env hops s
    .ok (.function f)

/-- The answers to calls made one after the other on one resolver. -/
def answers (env : Environment) (hops : Nat) : Resolver → List Call → List (Except Fault Answer)
  | _, [] => []
  | r, c :: calls =>
    ((c.answer env hops).run r).1 :: answers env hops ((c.answer env hops).run r).2 calls

variable {env : Environment} {hops : Nat}

theorem answer_agrees (c : Call) :
    Agrees (Valid env hops []) (c.answer env hops) (c.directAnswer env hops) := by
  cases c with
  | resolve m e => exact (resolve_agrees m e).bind fun _ => agrees_pure _
  | compile s => exact (compileFunction_agrees s).bind fun _ => agrees_pure _

/-- The states that a resolver can be in between calls. -/
inductive Reachable (env : Environment) (hops : Nat) : Resolver → Prop
  | fresh : Reachable env hops .fresh
  | call {r : Resolver} (c : Call) : Reachable env hops r →
      Reachable env hops ((c.answer env hops).run r).2

theorem Reachable.valid {r : Resolver} (h : r.Reachable env hops) : r.Valid env hops [] := by
  induction h with
  | fresh => exact fresh_valid env hops
  | call c _ ih => exact (answer_agrees c _ ih).2

theorem answers_of_valid {r : Resolver} (hr : r.Valid env hops []) (calls : List Call) :
    answers env hops r calls = calls.map (Call.directAnswer env hops) := by
  induction calls generalizing r with
  | nil => rfl
  | cons c calls ih =>
    obtain ⟨hresult, hafter⟩ := answer_agrees c r hr
    rw [answers, List.map_cons, ← hresult, ih hafter]

/-- Neither the calls before nor the memo change an answer: every call in a sequence is answered
as by a new resolver, and as without a memo. -/
theorem answers_independent (env : Environment) (hops : Nat) (calls : List Call) :
    answers env hops .fresh calls = calls.map (fun c => ((c.answer env hops).run .fresh).1) ∧
      answers env hops .fresh calls = calls.map (Call.directAnswer env hops) := by
  have hdirect := answers_of_valid (fresh_valid env hops) calls
  refine ⟨?_, hdirect⟩
  rw [hdirect]
  apply List.map_congr_left
  intro c _
  exact (answer_agrees c .fresh (fresh_valid env hops)).1.symm

end Resolver

end CallSchema
