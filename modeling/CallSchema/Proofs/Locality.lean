import Mathlib.Data.Set.Basic
import CallSchema.Proofs.Memo

/-! # Locality of names

A lookup never leaves the modules that imports lead to, and neither does resolution, which starts
again in the module of each definition it enters. Environments that agree on these modules
therefore give the same answers, faults included.
-/

namespace CallSchema

namespace Environment

/-- Whether an import of module `m` leads to another module. -/
inductive Imports (env : Environment) (m : ModulePath) : ModulePath → Prop
  | relative {scope : Scope} {n : ModulePath} : env.scopes.find? m = some scope →
      n ∈ scope.relative → Imports env m n
  | binding {scope : Scope} {name : String} {target : TypeKey} : env.scopes.find? m = some scope →
      scope.bindings.find? name = some target → Imports env m target.module

/-- The module itself and all modules that imports lead to from it. -/
def closure (env : Environment) (m : ModulePath) : Set ModulePath :=
  {n | Relation.ReflTransGen env.Imports m n}

/-- No import leads out of the given modules. -/
def Closed (env : Environment) (modules : Set ModulePath) : Prop :=
  ∀ m ∈ modules, ∀ n, env.Imports m n → n ∈ modules

/-- The environments have the same definitions and the same imports in the given modules. -/
structure AgreeOn (modules : Set ModulePath) (env other : Environment) : Prop where
  catalog : ∀ key : TypeKey, key.module ∈ modules →
    env.catalog.find? key = other.catalog.find? key
  scopes : ∀ m ∈ modules, env.scopes.find? m = other.scopes.find? m

variable {env other : Environment} {modules : Set ModulePath}

theorem mem_closure_self (env : Environment) (m : ModulePath) : m ∈ env.closure m :=
  Relation.ReflTransGen.refl

theorem closed_closure (env : Environment) (m : ModulePath) : env.Closed (env.closure m) :=
  fun _ hn _ himport => Relation.ReflTransGen.tail hn himport

/-- The closure is the least closed set with the module in it. -/
theorem closure_subset {m : ModulePath} (hm : m ∈ modules) (hc : env.Closed modules) :
    env.closure m ⊆ modules := by
  intro n hn
  induction hn with
  | refl => exact hm
  | tail _ himport ih => exact hc _ ih _ himport

theorem AgreeOn.mono {fewer : Set ModulePath} (h : AgreeOn modules env other)
    (hsub : fewer ⊆ modules) : AgreeOn fewer env other :=
  ⟨fun key hk => h.catalog key (hsub hk), fun m hm => h.scopes m (hsub hm)⟩

theorem imports_of_mem_steps {key next : TypeKey} (h : next ∈ env.steps key) :
    env.Imports key.module next.module := by
  obtain ⟨scope, hscope, hbound | ⟨n, hn, rfl⟩⟩ := mem_steps_iff.mp h
  · exact .binding hscope hbound
  · exact .relative hscope hn

section

variable (h : AgreeOn modules env other) {key : TypeKey} (hk : key.module ∈ modules)

include h hk

theorem settled?_congr : env.settled? key = other.settled? key := by
  unfold settled?
  rw [h.catalog key hk, h.scopes key.module hk]

theorem steps_congr : env.steps key = other.steps key := by
  unfold steps
  rw [h.scopes key.module hk]

end

theorem lookupIn_congr (h : AgreeOn modules env other) (hc : env.Closed modules) (hops : Nat)
    {key : TypeKey} (hk : key.module ∈ modules) (seen : Seen) :
    env.lookupIn hops key seen = other.lookupIn hops key seen := by
  have hsettled := settled?_congr h hk
  induction hops generalizing key seen with
  | zero =>
    cases hcovers : seen.covers key 0 with
    | true => rw [lookupIn_of_covers hcovers, lookupIn_of_covers hcovers]
    | false =>
      cases hs : env.settled? key with
      | some answer =>
        rw [lookupIn_of_settled hcovers hs, lookupIn_of_settled hcovers (hsettled.symm.trans hs)]
      | none => rw [lookupIn_zero hcovers hs, lookupIn_zero hcovers (hsettled.symm.trans hs)]
  | succ left ih =>
    cases hcovers : seen.covers key (left + 1) with
    | true => rw [lookupIn_of_covers hcovers, lookupIn_of_covers hcovers]
    | false =>
      cases hs : env.settled? key with
      | some answer =>
        rw [lookupIn_of_settled hcovers hs, lookupIn_of_settled hcovers (hsettled.symm.trans hs)]
      | none =>
        rw [lookupIn_succ hcovers hs, lookupIn_succ hcovers (hsettled.symm.trans hs),
          ← steps_congr h hk]
        refine firstFound_congr fun before next after seen' hsteps _ => ?_
        have hnext : next ∈ env.steps key := by simp [hsteps]
        have hmem := hc _ hk _ (imports_of_mem_steps hnext)
        exact ih hmem seen' (settled?_congr h hmem)

theorem lookup_congr (h : AgreeOn modules env other) (hc : env.Closed modules) (hops : Nat)
    {key : TypeKey} (hk : key.module ∈ modules) : env.lookup hops key = other.lookup hops key :=
  congrArg Prod.fst (lookupIn_congr h hc hops hk [])

/-- What a name means is defined in a module that imports lead to. -/
theorem lookup_found_mem (hc : env.Closed modules) {hops : Nat} {key found : TypeKey}
    {d : Definition} (hk : key.module ∈ modules) (h : env.lookup hops key = .found found d) :
    found.module ∈ modules := by
  have hsteps : ∀ key : TypeKey, key.module ∈ modules →
      ∀ next ∈ env.steps key, next.module ∈ modules := fun key hk next hnext =>
    hc _ hk _ (imports_of_mem_steps hnext)
  obtain ⟨last, hlast, hs⟩ := lookup_settles hsteps hk h (by simp)
  exact (settled?_found hs).1 ▸ hlast

end Environment

namespace Direct

open Environment

variable {env other : Environment} {modules : Set ModulePath}

/-- Every definition that is entered lies in a module that imports lead to, so that the names in it
mean the same again. -/
theorem reference_congr (h : AgreeOn modules env other) (hc : env.Closed modules) (hops : Nat)
    (visiting : List TypeKey) {m : ModulePath} (hm : m ∈ modules) (name : String) :
    reference env hops visiting m name = reference other hops visiting m name := by
  induction hn : env.unvisited visiting using Nat.strongRecOn generalizing visiting m name with
  | ind n ih =>
    have hsame : env.lookup hops ⟨m, name⟩ = other.lookup hops ⟨m, name⟩ :=
      lookup_congr h hc hops hm
    cases hl : env.lookup hops ⟨m, name⟩ with
    | external =>
      rw [reference_of_external visiting hl, reference_of_external visiting (hsame.symm.trans hl)]
    | missing =>
      rw [reference_of_missing visiting hl, reference_of_missing visiting (hsame.symm.trans hl)]
    | found key d =>
      rw [reference_of_found visiting hl, reference_of_found visiting (hsame.symm.trans hl)]
      by_cases hk : key ∈ visiting
      · rw [if_pos hk, if_pos hk]
      · have hkey : key.module ∈ modules := lookup_found_mem hc hm hl
        have hlt := unvisited_lt (lookup_found hl) hk
        have hinner : reference env hops (visiting ++ [key]) key.module =
            reference other hops (visiting ++ [key]) key.module :=
          funext fun inner => ih _ (hn ▸ hlt) (visiting ++ [key]) hkey inner rfl
        rw [if_neg hk, if_neg hk, hinner]

theorem resolve_congr (h : AgreeOn modules env other) (hc : env.Closed modules) (hops : Nat)
    {m : ModulePath} (hm : m ∈ modules) (e : TypeExpr) :
    resolve env hops m e = resolve other hops m e := by
  have hnames : reference env hops [] m = reference other hops [] m :=
    funext (reference_congr h hc hops [] hm)
  rw [resolve, resolve, hnames]

theorem compileParameters_congr (h : AgreeOn modules env other) (hc : env.Closed modules)
    (hops : Nat) {m : ModulePath} (hm : m ∈ modules) (input : InputSchema) (ps : List Parameter) :
    compileParameters env hops m input ps = compileParameters other hops m input ps := by
  induction ps generalizing input with
  | nil => rfl
  | cons p ps ih =>
    rw [compileParameters, compileParameters, resolve_congr h hc hops hm p.type]
    simp only [ih]

theorem compileFunction_congr (h : AgreeOn modules env other) (hc : env.Closed modules)
    (hops : Nat) {s : Signature} (hm : s.module ∈ modules) :
    compileFunction env hops s = compileFunction other hops s := by
  rw [compileFunction, compileFunction, compileParameters_congr h hc hops hm,
    resolve_congr h hc hops hm]

end Direct

theorem run_compileFunction_fresh (env : Environment) (hops : Nat) (s : Signature) :
    ((env.compileFunction hops s).run .fresh).1 = Direct.compileFunction env hops s :=
  (compileFunction_agrees s .fresh (Resolver.fresh_valid env hops)).1

namespace Environment

/-- Modules that no import leads to have no influence: environments that agree on the modules that
imports lead to from `m` give every name, type expression and signature in `m` the same meaning or
the same fault, however they differ elsewhere. -/
theorem answers_local (env other : Environment) (m : ModulePath)
    (h : AgreeOn (env.closure m) env other) (hops : Nat) :
    (∀ name, env.lookup hops ⟨m, name⟩ = other.lookup hops ⟨m, name⟩) ∧
      (∀ e, ((env.resolve hops m e).run .fresh).1 = ((other.resolve hops m e).run .fresh).1) ∧
      ∀ s : Signature, s.module = m →
        ((env.compileFunction hops s).run .fresh).1 =
          ((other.compileFunction hops s).run .fresh).1 := by
  have hc := closed_closure env m
  have hm := mem_closure_self env m
  refine ⟨fun name => lookup_congr h hc hops hm, fun e => ?_, fun s hs => ?_⟩
  · rw [run_resolve_fresh, run_resolve_fresh]
    exact Direct.resolve_congr h hc hops hm e
  · rw [run_compileFunction_fresh, run_compileFunction_fresh]
    exact Direct.compileFunction_congr h hc hops (hs ▸ hm)

/-- A service and its types, which import each other, and a module `pkg.stray` that neither
imports. -/
def besideStray (stray : Definition) (imports : Scope) : Environment where
  catalog := [(⟨⟨"pkg.stray"⟩, "Port"⟩, stray), (⟨⟨"pkg.types"⟩, "Port"⟩, .alias (.primitive .int))]
  scopes := [(⟨"pkg.stray"⟩, imports),
    (⟨"pkg.service"⟩, Scope.empty.bind "Port" ⟨⟨"pkg.types"⟩, "Port"⟩),
    (⟨"pkg.types"⟩, Scope.empty.bind "Serve" ⟨⟨"pkg.service"⟩, "Serve"⟩)]

theorem eq_of_imports_bind {env : Environment} {m n : ModulePath} {name : String} {target : TypeKey}
    (hscope : env.scopes.find? m = some (Scope.empty.bind name target)) (h : env.Imports m n) :
    n = target.module := by
  cases h with
  | relative hs hn =>
    cases hscope.symm.trans hs
    exact List.mem_singleton.mp hn
  | binding hs htarget =>
    cases hscope.symm.trans hs
    have hpair := List.mem_singleton.mp (Table.mem_of_find? htarget)
    rw [(Prod.mk.inj hpair).2]

theorem closed_besideStray (stray : Definition) (imports : Scope) :
    (besideStray stray imports).Closed {⟨"pkg.service"⟩, ⟨"pkg.types"⟩} := by
  rintro m (rfl | rfl) n himport
  · have hn : n = ⟨"pkg.types"⟩ := eq_of_imports_bind rfl himport
    exact .inr hn
  · have hn : n = ⟨"pkg.service"⟩ := eq_of_imports_bind rfl himport
    exact .inl hn

theorem agreeOn_besideStray (stray stray' : Definition) (imports imports' : Scope) :
    AgreeOn ((besideStray stray imports).closure ⟨"pkg.service"⟩) (besideStray stray imports)
      (besideStray stray' imports') := by
  have hsub := closure_subset (.inl rfl) (closed_besideStray stray imports)
  refine AgreeOn.mono ⟨?_, ?_⟩ hsub
  · rintro ⟨m, name⟩ (rfl | rfl) <;> rfl
  · rintro m (rfl | rfl) <;> rfl

def plainStray : Environment :=
  besideStray (.alias .any) .empty

def faultyStray : Environment :=
  besideStray (.invalid (.unsupportedLiteral "x")) (Scope.empty.addExternal "Port")

theorem answers_local_stray :
    AgreeOn (plainStray.closure ⟨"pkg.service"⟩) plainStray faultyStray ∧
      ((plainStray.resolve 16 ⟨"pkg.stray"⟩ (.reference "Port")).run .fresh).1.isOk = true ∧
      ((faultyStray.resolve 16 ⟨"pkg.stray"⟩ (.reference "Port")).run .fresh).1.isOk = false ∧
      ((plainStray.resolve 16 ⟨"pkg.service"⟩ (.reference "Port")).run .fresh).1 =
        ((faultyStray.resolve 16 ⟨"pkg.service"⟩ (.reference "Port")).run .fresh).1 := by
  have hagree : AgreeOn (plainStray.closure ⟨"pkg.service"⟩) plainStray faultyStray :=
    agreeOn_besideStray _ _ _ _
  refine ⟨hagree, rfl, rfl, ?_⟩
  exact (answers_local plainStray faultyStray ⟨"pkg.service"⟩ hagree 16).2.1 (.reference "Port")

end Environment

end CallSchema
