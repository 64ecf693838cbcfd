import Mathlib.Data.List.Chain
import CallSchema.Proofs.Annotations
import CallSchema.Proofs.Memo
import CallSchema.SyntaxTree.Build

/-! # Resolution and cycles

Resolution succeeds exactly where there is a finite derivation. A definition that leads back to
itself is therefore never resolved, and the report of a cycle is never about definitions that are
only shared or repeated: the definitions being resolved always form a path of uses, and the chain of
a report is the end of that path, from the definition that is met again.
-/

namespace CallSchema

/-- The definitions that a type expression written in module `m` leads to. -/
def Environment.LeadsTo (env : Environment) (hops : Nat) (m : ModulePath) (e : TypeExpr)
    (key : TypeKey) : Prop :=
  ∃ name ∈ e.references, ∃ first d, env.lookup hops ⟨m, name⟩ = .found first d ∧
    Relation.ReflTransGen (env.Uses hops) first key

theorem Resolution.literals_ne_cyclic (members : List LiteralMember) (chain : List String) :
    Resolution.literals members ≠ .error (.cyclicDefinition chain) := by
  induction members with
  | nil => simp [literals]
  | cons member members ih =>
    cases member with
    | invalid raw => simp [literals]
    | value v => cases h : literals members <;> simp_all [literals, Except.map]

namespace Direct

variable {named : String → Except Fault Schema} {m : ModulePath} {chain : List String}

theorem expandAll_eq_cyclic {es : List TypeExpr}
    (h : expandAll named m es = .error (.cyclicDefinition chain)) :
    ∃ e ∈ es, expand named m e = .error (.cyclicDefinition chain) := by
  induction es with
  | nil => cases h
  | cons e es ih =>
    rw [expandAll, bind_eq_error] at h
    rcases h with h | ⟨s, -, h⟩
    · exact ⟨e, List.mem_cons_self, h⟩
    · rcases bind_eq_error.mp h with h | ⟨ss, -, h⟩
      · obtain ⟨e', he', hcyclic⟩ := ih h
        exact ⟨e', List.mem_cons_of_mem _ he', hcyclic⟩
      · cases h

/-- An expression reports a cycle only because one of its names does. -/
theorem expand_eq_cyclic {e : TypeExpr}
    (h : expand named m e = .error (.cyclicDefinition chain)) :
    ∃ name ∈ e.references, named name = .error (.cyclicDefinition chain) := by
  induction e with
  | primitive | none | any | external | unsupported => cases h
  | list item ih | optional inner ih =>
    rw [expand, bind_eq_error] at h
    rcases h with h | ⟨s, -, h⟩
    · exact ih h
    · cases h
  | dict key value ihk ihv =>
    rw [expand, bind_eq_error] at h
    rcases h with h | ⟨keys, -, h⟩
    · obtain ⟨name, hn, hcyclic⟩ := ihk h
      exact ⟨name, List.mem_append_left _ hn, hcyclic⟩
    · split at h
      · rcases bind_eq_error.mp h with h | ⟨values, -, h⟩
        · obtain ⟨name, hn, hcyclic⟩ := ihv h
          exact ⟨name, List.mem_append_right _ hn, hcyclic⟩
        · cases h
      · cases h
  | union members ih =>
    rw [expand, bind_eq_error] at h
    rcases h with h | ⟨ss, -, h⟩
    · obtain ⟨e, he, hcyclic⟩ := expandAll_eq_cyclic h
      obtain ⟨name, hn, hnamed⟩ := ih e he hcyclic
      exact ⟨name, TypeExpr.mem_referencesAll.mpr ⟨e, he, hn⟩, hnamed⟩
    · cases h
  | literal members =>
    rw [expand, bind_eq_error] at h
    rcases h with h | ⟨values, -, h⟩
    · exact absurd h (Resolution.literals_ne_cyclic members chain)
    · cases h
  | reference name => exact ⟨name, List.mem_singleton.mpr rfl, h⟩

/-- A definition reports a cycle if one of its names does, or if that is what is wrong with it. -/
theorem expandDefinition_eq_cyclic {d : Definition}
    (h : expandDefinition named m d = .error (.cyclicDefinition chain)) :
    d = .invalid (.cyclicDefinition chain) ∨
      ∃ name ∈ d.references, named name = .error (.cyclicDefinition chain) := by
  match d with
  | .alias body => exact .inr (expand_eq_cyclic h)
  | .record r =>
    rw [expandDefinition, bind_eq_error] at h
    rcases h with h | ⟨ss, -, h⟩
    · obtain ⟨e, he, hcyclic⟩ := expandAll_eq_cyclic h
      obtain ⟨name, hn, hnamed⟩ := expand_eq_cyclic hcyclic
      exact .inr ⟨name, TypeExpr.mem_referencesAll.mpr ⟨e, he, hn⟩, hnamed⟩
    · cases h
  | .invalid fault =>
    cases h
    exact .inl rfl

end Direct

namespace Environment

/-- The definitions form a cycle: they are different, each uses the next one, and the last one uses
the first. -/
structure IsCycle (env : Environment) (hops : Nat) (first : TypeKey) (rest : List TypeKey) :
    Prop where
  nodup : (first :: rest).Nodup
  uses : List.IsChain (env.Uses hops) (first :: rest ++ [first])

/-- How resolution of an expression gets to a definition: those being resolved are different, each
uses the next one and the last one the definition, and the expression leads to all of them. -/
structure Trail (env : Environment) (hops : Nat) (m : ModulePath) (e : TypeExpr)
    (visiting : List TypeKey) (key : TypeKey) : Prop where
  nodup : visiting.Nodup
  uses : List.IsChain (env.Uses hops) (visiting ++ [key])
  leads : ∀ k ∈ visiting ++ [key], env.LeadsTo hops m e k

variable {env : Environment} {hops : Nat} {m : ModulePath} {e : TypeExpr}

theorem IsCycle.transGen {first : TypeKey} {rest : List TypeKey} (h : env.IsCycle hops first rest) :
    Relation.TransGen (env.Uses hops) first first := by
  have hchain : List.IsChain (Relation.TransGen (env.Uses hops)) (first :: (rest ++ [first])) :=
    h.uses.imp fun _ _ => .single
  exact hchain.rel_cons (by simp)

theorem LeadsTo.tail {key next : TypeKey} (h : env.LeadsTo hops m e key)
    (hu : env.Uses hops key next) : env.LeadsTo hops m e next := by
  obtain ⟨name, hn, first, d, hl, hpath⟩ := h
  exact ⟨name, hn, first, d, hl, hpath.tail hu⟩

theorem trail_nil {name : String} {key : TypeKey} {d : Definition} (hn : name ∈ e.references)
    (hl : env.lookup hops ⟨m, name⟩ = .found key d) : env.Trail hops m e [] key := by
  refine ⟨List.nodup_nil, .singleton key, fun k hk => ?_⟩
  rw [List.mem_singleton.mp hk]
  exact ⟨name, hn, key, d, hl, .refl⟩

namespace Trail

variable {visiting : List TypeKey} {key : TypeKey}

theorem leads_key (h : env.Trail hops m e visiting key) : env.LeadsTo hops m e key :=
  h.leads key (by simp)

theorem extend (h : env.Trail hops m e visiting key) (hk : key ∉ visiting) {next : TypeKey}
    (hu : env.Uses hops key next) : env.Trail hops m e (visiting ++ [key]) next := by
  refine ⟨?_, ?_, fun k hmem => ?_⟩
  · exact h.nodup.append (List.nodup_singleton key) (List.disjoint_singleton.mpr hk)
  · refine h.uses.append (.singleton next) fun last hlast other hother => ?_
    rw [List.getLast?_concat, Option.mem_some_iff] at hlast
    cases hother
    exact hlast ▸ hu
  · rcases List.mem_append.mp hmem with hmem | hmem
    · exact h.leads k hmem
    · rw [List.mem_singleton.mp hmem]
      exact h.leads_key.tail hu

/-- The end of the trail, from the definition that is met again, is a cycle. -/
theorem isCycle (h : env.Trail hops m e visiting key) (hk : key ∈ visiting) :
    ∃ rest, visiting.dropWhile (fun k => decide (k ≠ key)) = key :: rest ∧
      env.IsCycle hops key rest := by
  obtain ⟨before, rest, rfl, hbefore⟩ := List.eq_append_cons_of_mem hk
  have hdrop : (before ++ key :: rest).dropWhile (fun k => decide (k ≠ key)) = key :: rest := by
    rw [List.dropWhile_append_of_pos]
    · simp
    · intro k hmem
      simpa using fun he : k = key => hbefore (he ▸ hmem)
  refine ⟨rest, hdrop, h.nodup.of_append_right, ?_⟩
  have huses := h.uses
  rw [List.append_assoc] at huses
  exact huses.right_of_append

end Trail

/-- Whether the chain names the definitions of a cycle, from a first one that the expression leads
to back to it. -/
def Traces (env : Environment) (hops : Nat) (m : ModulePath) (e : TypeExpr) (chain : List String) :
    Prop :=
  ∃ first rest, chain = (first :: rest ++ [first]).map TypeKey.qualified ∧
    env.IsCycle hops first rest ∧ env.LeadsTo hops m e first

end Environment

namespace Direct

variable {env : Environment} {hops : Nat} {m : ModulePath} {e : TypeExpr} {chain : List String}

/-- If a cycle is reported for a name that a trail leads to, the trail goes on to a cycle, or to a
definition whose own fault is reported. -/
theorem reference_eq_cyclic {visiting : List TypeKey} {inside : ModulePath} {name : String}
    (htrail : ∀ key d, env.lookup hops ⟨inside, name⟩ = .found key d →
      env.Trail hops m e visiting key)
    (h : reference env hops visiting inside name = .error (.cyclicDefinition chain)) :
    env.Traces hops m e chain ∨ ∃ key, env.LeadsTo hops m e key ∧
      env.catalog.find? key = some (.invalid (.cyclicDefinition chain)) := by
  induction hn : env.unvisited visiting using Nat.strongRecOn generalizing visiting inside name with
  | ind n ih =>
    cases hl : env.lookup hops ⟨inside, name⟩ with
    | external =>
      rw [reference_of_external visiting hl] at h
      cases h
    | missing =>
      rw [reference_of_missing visiting hl] at h
      cases h
    | found key d =>
      have hkey := htrail key d hl
      rw [reference_of_found visiting hl] at h
      split at h
      · rename_i hk
        obtain ⟨rest, hdrop, hcycle⟩ := hkey.isCycle hk
        cases h
        exact .inl ⟨key, rest, by rw [hdrop], hcycle, hkey.leads_key⟩
      · rename_i hk
        rcases expandDefinition_eq_cyclic h with rfl | ⟨inner, hinner, hcyclic⟩
        · exact .inr ⟨key, hkey.leads_key, Environment.lookup_found hl⟩
        · refine ih _ (hn ▸ Environment.unvisited_lt (Environment.lookup_found hl) hk)
            (fun next d' hl' => ?_) hcyclic rfl
          exact hkey.extend hk ⟨d, inner, d', Environment.lookup_found hl, hinner, hl'⟩

theorem resolve_eq_traces
    (h : Direct.resolve env hops m e = .error (.cyclicDefinition chain)) :
    env.Traces hops m e chain ∨ ∃ key, env.LeadsTo hops m e key ∧
      env.catalog.find? key = some (.invalid (.cyclicDefinition chain)) := by
  obtain ⟨name, hn, hcyclic⟩ := expand_eq_cyclic h
  exact reference_eq_cyclic (fun key d hl => Environment.trail_nil hn hl) hcyclic

end Direct

section

variable {env : Environment} {hops : Nat} {m : ModulePath} {e : TypeExpr}

/-- Nothing that a derivation passes through lies on a cycle. -/
theorem Resolves.not_cyclic {s : Schema} (h : Resolves env hops m e s) {key : TypeKey}
    (hkey : env.LeadsTo hops m e key) : ¬ Relation.TransGen (env.Uses hops) key key := by
  obtain ⟨name, hn, first, d, hl, hpath⟩ := hkey
  have hacc := h.acc hn hl
  apply not_transGen_of_acc
  induction hpath with
  | refl => exact hacc
  | tail _ hstep ih => exact ih.inv hstep

theorem Direct.resolve_eq_cyclic {chain : List String}
    (h : Direct.resolve env hops m e = .error (.cyclicDefinition chain)) :
    ∃ key, env.LeadsTo hops m e key ∧ (Relation.TransGen (env.Uses hops) key key ∨
      env.catalog.find? key = some (.invalid (.cyclicDefinition chain))) := by
  rcases Direct.resolve_eq_traces h with ⟨first, rest, -, hcycle, hleads⟩ | ⟨key, hleads, hinvalid⟩
  · exact ⟨first, hleads, .inl hcycle.transGen⟩
  · exact ⟨key, hleads, .inr hinvalid⟩

end

/-- A type expression resolves exactly if it has a derivation. So it does not resolve if it leads to
a definition that uses itself; and if it leads to none, a cycle is reported only where a definition
was entered as invalid for that very reason. -/
theorem Environment.resolve_iff_derivation (env : Environment) (hops : Nat) (m : ModulePath)
    (e : TypeExpr) :
    (∀ s, ((env.resolve hops m e).run .fresh).1 = .ok s ↔ Resolves env hops m e s) ∧
      ((∃ key, env.LeadsTo hops m e key ∧ Relation.TransGen (env.Uses hops) key key) →
        ∀ s, ((env.resolve hops m e).run .fresh).1 ≠ .ok s) ∧
      ((∀ key, env.LeadsTo hops m e key → ¬ Relation.TransGen (env.Uses hops) key key) →
        ∀ chain, ((env.resolve hops m e).run .fresh).1 = .error (.cyclicDefinition chain) →
          ∃ key, env.LeadsTo hops m e key ∧
            env.catalog.find? key = some (.invalid (.cyclicDefinition chain))) := by
  rw [run_resolve_fresh m e]
  refine ⟨fun s => Direct.resolve_eq_ok_iff, ?_, ?_⟩
  · rintro ⟨key, hleads, hcycle⟩ s hs
    exact (Direct.resolve_eq_ok_iff.mp hs).not_cyclic hleads hcycle
  · intro hacyclic chain hchain
    obtain ⟨key, hleads, hcycle | hinvalid⟩ := Direct.resolve_eq_cyclic hchain
    · exact absurd hcycle (hacyclic key hleads)
    · exact ⟨key, hleads, hinvalid⟩

/-- A pair whose halves share their base, and a type that uses itself. -/
def Environment.sharing : Environment where
  catalog := [
    (⟨⟨"m"⟩, "Pair"⟩, .record ⟨true, [("l", .reference "Left"), ("r", .reference "Right")]⟩),
    (⟨⟨"m"⟩, "Left"⟩, .alias (.list (.reference "Base"))),
    (⟨⟨"m"⟩, "Right"⟩, .alias (.optional (.reference "Base"))),
    (⟨⟨"m"⟩, "Base"⟩, .alias (.primitive .int)),
    (⟨⟨"m"⟩, "Loop"⟩, .alias (.list (.reference "Loop")))]
  scopes := []

theorem sharing_resolve_iff_derivation :
    Resolves .sharing 0 ⟨"m"⟩ (.dict (.primitive .str) (.reference "Pair"))
        (.map (.record [("l", .array .integer), ("r", .anyOf [.integer, .null])] ["l", "r"])) ∧
      ∀ s, ((Environment.sharing.resolve 0 ⟨"m"⟩ (.optional (.reference "Loop"))).run .fresh).1 ≠
        .ok s := by
  have hloop : Environment.sharing.lookup 0 ⟨⟨"m"⟩, "Loop"⟩ =
      .found ⟨⟨"m"⟩, "Loop"⟩ (.alias (.list (.reference "Loop"))) := rfl
  have huses : Environment.sharing.Uses 0 ⟨⟨"m"⟩, "Loop"⟩ ⟨⟨"m"⟩, "Loop"⟩ :=
    ⟨_, "Loop", _, rfl, List.mem_singleton.mpr rfl, hloop⟩
  constructor
  · exact ((Environment.resolve_iff_derivation .sharing 0 ⟨"m"⟩ _).1 _).mp rfl
  · refine (Environment.resolve_iff_derivation .sharing 0 ⟨"m"⟩ _).2.1 ⟨_, ?_, .single huses⟩
    exact ⟨"Loop", List.mem_singleton.mpr rfl, _, _, hloop, .refl⟩

/-- Whether the definition is not itself the report of a cycle. -/
def Definition.ReportsNoCycle (d : Definition) : Prop :=
  ∀ chain, d ≠ .invalid (.cyclicDefinition chain)

theorem ScanTarget.environment_reportsNoCycle (t : ScanTarget) :
    t.environment.All Definition.ReportsNoCycle := by
  rintro key d hd chain rfl
  obtain ⟨hint, reason, hfault⟩ := ScanTarget.environment_isUnsupportedType hd
  cases hfault

/-- A reported cycle is a real one: unless the report was entered as a definition, its chain names
definitions that are different, each of which uses the next one and the last one the first, and the
expression leads to the first. What a target declares holds no such report. -/
theorem Environment.resolve_traces_cycle :
    (∀ (env : Environment) (hops : Nat) (m : ModulePath) (e : TypeExpr) (chain : List String),
      env.All Definition.ReportsNoCycle →
      ((env.resolve hops m e).run .fresh).1 = .error (.cyclicDefinition chain) →
      ∃ first rest, chain = (first :: rest ++ [first]).map TypeKey.qualified ∧
        (first :: rest).Nodup ∧ List.IsChain (env.Uses hops) (first :: rest ++ [first]) ∧
        env.LeadsTo hops m e first) ∧
      ∀ t : ScanTarget, t.environment.All Definition.ReportsNoCycle := by
  refine ⟨fun env hops m e chain henv h => ?_, ScanTarget.environment_reportsNoCycle⟩
  rw [run_resolve_fresh m e] at h
  rcases Direct.resolve_eq_traces h with ⟨first, rest, hchain, hcycle, hleads⟩ | ⟨key, -, hinvalid⟩
  · exact ⟨first, rest, hchain, hcycle.nodup, hcycle.uses, hleads⟩
  · exact absurd rfl (henv key _ hinvalid chain)

/-- Two modules of a package whose types are defined by each other. -/
def ScanTarget.entangled : ScanTarget :=
  .ofPackage ⟨"pkg"⟩ [
    ⟨⟨"pkg.tree"⟩, false, ⟨[
      .importFrom (some "typing") 0 [.plain "List"],
      .importFrom (some "node") 1 [.aliased "Node" "N"],
      .assignName "Tree" (.subscript (.name "List") (.name "N"))]⟩, false⟩,
    ⟨⟨"pkg.node"⟩, false, ⟨[
      .importFrom (some "typing") 0 [.plain "Optional"],
      .importFrom (some "tree") 1 [.plain "*"],
      .assignName "Node" (.subscript (.name "Optional") (.name "Tree"))]⟩, false⟩]

theorem resolve_traces_cycle_entangled :
    ((ScanTarget.entangled.environment.resolve 16 ⟨"pkg.tree"⟩ (.optional (.reference "N"))).run
        .fresh).1 = .error (.cyclicDefinition ["pkg.node.Node", "pkg.tree.Tree", "pkg.node.Node"]) ∧
      ∃ first rest, ["pkg.node.Node", "pkg.tree.Tree", "pkg.node.Node"] =
          (first :: rest ++ [first]).map TypeKey.qualified ∧ (first :: rest).Nodup ∧
        List.IsChain (ScanTarget.entangled.environment.Uses 16) (first :: rest ++ [first]) ∧
        ScanTarget.entangled.environment.LeadsTo 16 ⟨"pkg.tree"⟩ (.optional (.reference "N"))
          first := by
  have hreport : ((ScanTarget.entangled.environment.resolve 16 ⟨"pkg.tree"⟩
      (.optional (.reference "N"))).run .fresh).1 =
      .error (.cyclicDefinition ["pkg.node.Node", "pkg.tree.Tree", "pkg.node.Node"]) := rfl
  obtain ⟨hreal, hdeclared⟩ := Environment.resolve_traces_cycle
  exact ⟨hreport, hreal _ _ _ _ _ (hdeclared .entangled) hreport⟩

end CallSchema
