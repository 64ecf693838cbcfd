import CallSchema.Proofs.DirectResolution

/-! # Derivations of schemas

A type expression resolves if its schema has a finite derivation. The relation knows neither a memo
nor the definitions being resolved; it agrees with resolution because no derivation passes through a
definition that uses itself.
-/

namespace CallSchema

/-- The schemas that type expressions resolve to, by finite derivations. -/
inductive Resolves (env : Environment) (hops : Nat) : ModulePath → TypeExpr → Schema → Prop
  | primitive (m : ModulePath) (p : Primitive) : Resolves env hops m (.primitive p) (.ofPrimitive p)
  | none (m : ModulePath) : Resolves env hops m .none .null
  | any (m : ModulePath) : Resolves env hops m .any .any
  | list {m : ModulePath} {item : TypeExpr} {s : Schema} : Resolves env hops m item s →
      Resolves env hops m (.list item) (.array s)
  | dict {m : ModulePath} {key value : TypeExpr} {s : Schema} : Resolves env hops m key .string →
      Resolves env hops m value s → Resolves env hops m (.dict key value) (.map s)
  | optional {m : ModulePath} {inner : TypeExpr} {s : Schema} : Resolves env hops m inner s →
      Resolves env hops m (.optional inner) (.unite [s, .null])
  | union {m : ModulePath} {es : List TypeExpr} {ss : List Schema} : es.length = ss.length →
      (∀ p ∈ es.zip ss, Resolves env hops m p.1 p.2) →
      Resolves env hops m (.union es) (.unite ss)
  | literal (m : ModulePath) (values : List Literal) :
      Resolves env hops m (.literal (values.map .value)) (.enum values)
  | ofAlias {m : ModulePath} {name : String} {key : TypeKey} {body : TypeExpr} {s : Schema} :
      env.lookup hops ⟨m, name⟩ = .found key (.alias body) → Resolves env hops key.module body s →
      Resolves env hops m (.reference name) s
  | ofRecord {m : ModulePath} {name : String} {key : TypeKey} {r : RecordType} {ss : List Schema} :
      env.lookup hops ⟨m, name⟩ = .found key (.record r) →
      (r.fields.map Prod.snd).length = ss.length →
      (∀ p ∈ (r.fields.map Prod.snd).zip ss, Resolves env hops key.module p.1 p.2) →
      Resolves env hops m (.reference name)
        (.record (r.fields.keys.zip ss) (if r.total then r.fields.keys else []))

/-- Expressions that resolve one by one. -/
def ResolvesAll (env : Environment) (hops : Nat) (m : ModulePath) (es : List TypeExpr)
    (ss : List Schema) : Prop :=
  es.length = ss.length ∧ ∀ p ∈ es.zip ss, Resolves env hops m p.1 p.2

/-- The schema of a definition in module `m`, by a finite derivation. -/
def DefinitionResolves (env : Environment) (hops : Nat) (m : ModulePath) :
    Definition → Schema → Prop
  | .alias body, s => Resolves env hops m body s
  | .record r, s => ∃ ss, ResolvesAll env hops m (r.fields.map Prod.snd) ss ∧
      .record (r.fields.keys.zip ss) (if r.total then r.fields.keys else []) = s
  | .invalid _, _ => False

variable {env : Environment} {hops : Nat}

theorem resolvesAll_nil {m : ModulePath} {ss : List Schema} :
    ResolvesAll env hops m [] ss ↔ ss = [] := by
  constructor
  · rintro ⟨hl, -⟩
    exact List.eq_nil_of_length_eq_zero hl.symm
  · rintro rfl
    exact ⟨rfl, by simp⟩

theorem resolvesAll_cons {m : ModulePath} {e : TypeExpr} {es : List TypeExpr} {ss : List Schema} :
    ResolvesAll env hops m (e :: es) ss ↔
      ∃ s rest, ss = s :: rest ∧ Resolves env hops m e s ∧ ResolvesAll env hops m es rest := by
  constructor
  · rintro ⟨hl, hs⟩
    cases ss with
    | nil => simp at hl
    | cons s rest =>
      refine ⟨s, rest, rfl, hs (e, s) (by simp), Nat.succ.inj hl, fun p hp => hs p ?_⟩
      rw [List.zip_cons_cons]
      exact List.mem_cons_of_mem _ hp
  · rintro ⟨s, rest, rfl, he, hl, hs⟩
    refine ⟨by simp [hl], fun p hp => ?_⟩
    rw [List.zip_cons_cons] at hp
    rcases List.mem_cons.mp hp with rfl | hp
    · exact he
    · exact hs p hp

theorem resolves_reference_iff {m : ModulePath} {name : String} {s : Schema} :
    Resolves env hops m (.reference name) s ↔
      ∃ key d, env.lookup hops ⟨m, name⟩ = .found key d ∧
        DefinitionResolves env hops key.module d s := by
  constructor
  · intro h
    cases h with
    | ofAlias hl hb => exact ⟨_, _, hl, hb⟩
    | ofRecord hl hlen hs => exact ⟨_, _, hl, _, ⟨hlen, hs⟩, rfl⟩
  · rintro ⟨key, d, hl, hd⟩
    match d, hd with
    | .alias body, hd => exact .ofAlias hl hd
    | .record r, ⟨ss, ⟨hlen, hs⟩, hr⟩ => exact hr ▸ .ofRecord hl hlen hs

/-- Under the name of an item there is what stands at the place of the item. -/
theorem find?_zip_map {α ν : Type} {name : α → String} {as : List α} {values : List ν}
    (hlen : as.length = values.length) (hn : (as.map name).Nodup) {k : String} {value : ν} :
    Table.find? ((as.map name).zip values) k = some value ↔
      ∃ a, (a, value) ∈ as.zip values ∧ name a = k := by
  have hkeys : (Table.keys ((as.map name).zip values)).Nodup := by
    rwa [Table.keys, List.map_fst_zip (by simp [hlen])]
  have hmem : (k, value) ∈ (as.map name).zip values ↔
      ∃ a, (a, value) ∈ as.zip values ∧ name a = k := by
    simp [List.zip_map_left]
  rw [← hmem]
  exact ⟨Table.mem_of_find?, Table.find?_of_mem hkeys⟩

section

variable {fields : Table String TypeExpr} {ss : List Schema}

theorem keys_properties (hlen : fields.length = ss.length) :
    (fields.keys.zip ss).map Prod.fst = fields.keys :=
  List.map_fst_zip (by simp [Table.keys, hlen])

theorem nodup_properties (hlen : fields.length = ss.length) (hn : fields.keys.Nodup) :
    (Table.keys (fields.keys.zip ss)).Nodup := by
  rwa [Table.keys, keys_properties hlen]

/-- The property of a name has the schema of the field with that name. -/
theorem find?_properties (hlen : fields.length = ss.length) (hn : fields.keys.Nodup) {k : String}
    {s : Schema} :
    Table.find? (fields.keys.zip ss) k = some s ↔ ∃ e, ((k, e), s) ∈ fields.zip ss := by
  rw [Table.keys, find?_zip_map hlen hn]
  constructor
  · rintro ⟨⟨_, e⟩, hmem, rfl⟩
    exact ⟨e, hmem⟩
  · rintro ⟨e, hmem⟩
    exact ⟨(k, e), hmem, rfl⟩

end

/-- No definition with a derivation reaches itself: derivations are finite. -/
theorem Resolves.acc {m : ModulePath} {e : TypeExpr} {s : Schema} (h : Resolves env hops m e s)
    {name : String} (hn : name ∈ e.references) {key : TypeKey} {d : Definition}
    (hl : env.lookup hops ⟨m, name⟩ = .found key d) :
    Acc (fun a b => env.Uses hops b a) key := by
  induction h generalizing name key d with
  | primitive | none | any | literal => simp [TypeExpr.references] at hn
  | list _ ih => exact ih hn hl
  | dict _ _ ihk ihv =>
    rcases List.mem_append.mp hn with hn | hn
    · exact ihk hn hl
    · exact ihv hn hl
  | optional _ ih => exact ih hn hl
  | union hlen hs ih =>
    obtain ⟨e, he, hn⟩ := TypeExpr.mem_referencesAll.mp hn
    obtain ⟨s, hp⟩ := exists_mem_zip hlen he
    exact ih _ hp hn hl
  | ofAlias hfound _ ih =>
    obtain rfl := List.mem_singleton.mp hn
    cases hfound.symm.trans hl
    refine Acc.intro _ fun next ⟨d', name', d'', hd', hn', hl'⟩ => ?_
    cases (Environment.lookup_found hl).symm.trans hd'
    exact ih hn' hl'
  | ofRecord hfound hlen hs ih =>
    obtain rfl := List.mem_singleton.mp hn
    cases hfound.symm.trans hl
    refine Acc.intro _ fun next ⟨d', name', d'', hd', hn', hl'⟩ => ?_
    cases (Environment.lookup_found hl).symm.trans hd'
    obtain ⟨e, he, hn'⟩ := TypeExpr.mem_referencesAll.mp hn'
    obtain ⟨s, hp⟩ := exists_mem_zip hlen he
    exact ih _ hp hn' hl'

theorem not_transGen_of_acc {key : TypeKey} (h : Acc (fun a b => env.Uses hops b a) key) :
    ¬ Relation.TransGen (env.Uses hops) key key := by
  induction h with
  | intro key _ ih =>
    intro hcycle
    obtain ⟨next, hstep, hrest⟩ := Relation.TransGen.head'_iff.mp hcycle
    exact ih next hstep (Relation.TransGen.tail' hrest hstep)

theorem literals_eq_ok_iff {members : List LiteralMember} {values : List Literal} :
    Resolution.literals members = .ok values ↔ members = values.map .value := by
  induction members generalizing values with
  | nil => cases values <;> simp [Resolution.literals]
  | cons member members ih =>
    cases member with
    | invalid raw => cases values <;> simp [Resolution.literals]
    | value v =>
      cases values with
      | nil => cases h : Resolution.literals members <;> simp [Resolution.literals, h, Except.map]
      | cons w values =>
        cases h : Resolution.literals members <;>
          simp [Resolution.literals, h, Except.map, ← ih]

theorem isString_iff {s : Schema} : s.isString = true ↔ s = .string := by
  cases s <;> simp [Schema.isString]

namespace Direct

variable {named : String → Except Fault Schema} {m : ModulePath}

theorem expandAll_eq_ok_iff {es : List TypeExpr} {ss : List Schema}
    (h : ∀ e ∈ es, ∀ s, expand named m e = .ok s ↔ Resolves env hops m e s) :
    expandAll named m es = .ok ss ↔ ResolvesAll env hops m es ss := by
  induction es generalizing ss with
  | nil => simp [expandAll, resolvesAll_nil, eq_comm]
  | cons e es ih =>
    have ih := @ih
    simp only [expandAll, bind_eq_ok, resolvesAll_cons, h e List.mem_cons_self,
      ih fun e he => h e (List.mem_cons_of_mem _ he), Except.ok.injEq]
    constructor
    · rintro ⟨s, he, rest, hrest, rfl⟩
      exact ⟨s, rest, rfl, he, hrest⟩
    · rintro ⟨s, rest, rfl, he, hrest⟩
      exact ⟨s, he, rest, hrest, rfl⟩

/-- Expansion follows the derivations if the schemas of names do. -/
theorem expand_eq_ok_iff {e : TypeExpr} {s : Schema}
    (h : ∀ name ∈ e.references, ∀ s, named name = .ok s ↔ Resolves env hops m (.reference name) s) :
    expand named m e = .ok s ↔ Resolves env hops m e s := by
  induction e generalizing s with
  | primitive p =>
    simp only [expand, Except.ok.injEq]
    constructor
    · rintro rfl; exact .primitive m p
    · rintro ⟨⟩; rfl
  | none =>
    simp only [expand, Except.ok.injEq]
    constructor
    · rintro rfl; exact .none m
    · rintro ⟨⟩; rfl
  | any =>
    simp only [expand, Except.ok.injEq]
    constructor
    · rintro rfl; exact .any m
    · rintro ⟨⟩; rfl
  | list item ih =>
    simp only [expand, bind_eq_ok, ih h, Except.ok.injEq]
    constructor
    · rintro ⟨items, hi, rfl⟩; exact .list hi
    · rintro ⟨⟩; exact ⟨_, ‹_›, rfl⟩
  | dict key value ihk ihv =>
    have hk := fun name hn => h name (List.mem_append_left _ hn)
    have hv := fun name hn => h name (List.mem_append_right _ hn)
    simp only [expand, bind_eq_ok, ihk hk]
    constructor
    · rintro ⟨keys, hkeys, hrest⟩
      split at hrest
      · rename_i hstring
        obtain rfl := isString_iff.mp hstring
        obtain ⟨values, hvalues, hs⟩ := bind_eq_ok.mp hrest
        cases hs
        exact .dict hkeys ((ihv hv).mp hvalues)
      · cases hrest
    · intro hd
      cases hd with
      | dict hkeys hvalues => exact ⟨.string, hkeys, bind_eq_ok.mpr ⟨_, (ihv hv).mpr hvalues, rfl⟩⟩
  | optional inner ih =>
    simp only [expand, bind_eq_ok, ih h, Except.ok.injEq]
    constructor
    · rintro ⟨schema, hi, rfl⟩; exact .optional hi
    · rintro ⟨⟩; exact ⟨_, ‹_›, rfl⟩
  | union members ih =>
    have hm : ∀ e ∈ members, ∀ s, expand named m e = .ok s ↔ Resolves env hops m e s :=
      fun e he s => ih e he fun name hn => h name (TypeExpr.mem_referencesAll.mpr ⟨e, he, hn⟩)
    simp only [expand, bind_eq_ok, expandAll_eq_ok_iff hm, Except.ok.injEq]
    constructor
    · rintro ⟨schemas, ⟨hlen, hs⟩, rfl⟩; exact .union hlen hs
    · intro hu
      cases hu with
      | union hlen hs => exact ⟨_, ⟨hlen, hs⟩, rfl⟩
  | literal members =>
    simp only [expand, bind_eq_ok, literals_eq_ok_iff, Except.ok.injEq]
    constructor
    · rintro ⟨values, rfl, rfl⟩; exact .literal m values
    · intro hl
      cases hl with
      | literal _ values => exact ⟨values, rfl, rfl⟩
  | reference name => exact h name (List.mem_singleton.mpr rfl) s
  | external name =>
    constructor
    · intro hx; cases hx
    · intro hx; cases hx
  | unsupported name =>
    constructor
    · intro hx; cases hx
    · intro hx; cases hx

theorem expandDefinition_eq_ok_iff {d : Definition} {s : Schema}
    (h : ∀ name ∈ d.references, ∀ s, named name = .ok s ↔ Resolves env hops m (.reference name) s) :
    expandDefinition named m d = .ok s ↔ DefinitionResolves env hops m d s := by
  match d with
  | .alias body => exact expand_eq_ok_iff h
  | .record r =>
    have hf : ∀ e ∈ r.fields.map Prod.snd, ∀ s,
        expand named m e = .ok s ↔ Resolves env hops m e s := fun e he s =>
      expand_eq_ok_iff fun name hn => h name (TypeExpr.mem_referencesAll.mpr ⟨e, he, hn⟩)
    simp only [expandDefinition, bind_eq_ok, expandAll_eq_ok_iff hf, Except.ok.injEq,
      DefinitionResolves]
  | .invalid fault => simp [expandDefinition, DefinitionResolves]

end Direct

/-- Every definition being resolved leads to what the name means. -/
def Reaches (env : Environment) (hops : Nat) (visiting : List TypeKey) (m : ModulePath)
    (name : String) : Prop :=
  ∀ start ∈ visiting, ∀ key d, env.lookup hops ⟨m, name⟩ = .found key d →
    Relation.TransGen (env.Uses hops) start key

theorem reaches_nil (m : ModulePath) (name : String) : Reaches env hops [] m name :=
  fun _ h => absurd h List.not_mem_nil

/-- The names in a definition are reached through it. -/
theorem Reaches.enter {visiting : List TypeKey} {m : ModulePath} {name inner : String}
    {key : TypeKey} {d : Definition} (h : Reaches env hops visiting m name)
    (hl : env.lookup hops ⟨m, name⟩ = .found key d) (hn : inner ∈ d.references) :
    Reaches env hops (visiting ++ [key]) key.module inner := by
  intro start hstart next d' hl'
  have huses : env.Uses hops key next := ⟨d, inner, d', Environment.lookup_found hl, hn, hl'⟩
  rcases List.mem_append.mp hstart with hstart | hstart
  · exact (h start hstart key d hl).tail huses
  · rw [List.mem_singleton.mp hstart]
    exact .single huses

/-- A name with a derivation is never one that is being resolved. -/
theorem Reaches.not_mem {visiting : List TypeKey} {m : ModulePath} {name : String} {key : TypeKey}
    {d : Definition} {s : Schema} (h : Reaches env hops visiting m name)
    (hl : env.lookup hops ⟨m, name⟩ = .found key d)
    (hs : Resolves env hops m (.reference name) s) : key ∉ visiting := fun hk =>
  not_transGen_of_acc (hs.acc (List.mem_singleton.mpr rfl) hl) (h key hk key d hl)

theorem Direct.reference_eq_ok_iff {visiting : List TypeKey} {m : ModulePath} {name : String}
    {s : Schema} (h : Reaches env hops visiting m name) :
    Direct.reference env hops visiting m name = .ok s ↔
      Resolves env hops m (.reference name) s := by
  induction hn : env.unvisited visiting using Nat.strongRecOn generalizing visiting m name s with
  | ind n ih =>
    rw [resolves_reference_iff]
    cases hl : env.lookup hops ⟨m, name⟩ with
    | external => simp [reference_of_external visiting hl]
    | missing => simp [reference_of_missing visiting hl]
    | found key d =>
      have hbody (hk : key ∉ visiting) : expandDefinition
          (reference env hops (visiting ++ [key]) key.module) key.module d = .ok s ↔
          DefinitionResolves env hops key.module d s :=
        expandDefinition_eq_ok_iff fun inner hinner s =>
          ih _ (hn ▸ Environment.unvisited_lt (Environment.lookup_found hl) hk)
            (h.enter hl hinner) rfl
      rw [reference_of_found visiting hl]
      constructor
      · intro hok
        split at hok
        · cases hok
        · rename_i hk
          exact ⟨key, d, rfl, (hbody hk).mp hok⟩
      · rintro ⟨key', d', hfound, hd⟩
        cases hfound
        have hk := h.not_mem hl (resolves_reference_iff.mpr ⟨key, d, hl, hd⟩)
        rw [if_neg hk]
        exact (hbody hk).mpr hd

/-- A definition resolves under its own name, in its module, as it does by itself. -/
theorem Direct.reference_own_eq_ok_iff {key : TypeKey} {d : Definition}
    (hd : env.catalog.find? key = some d) {s : Schema} :
    Direct.reference env hops [] key.module key.name = .ok s ↔
      DefinitionResolves env hops key.module d s := by
  have hl : env.lookup hops ⟨key.module, key.name⟩ = .found key d := Environment.lookup_own hd
  rw [Direct.reference_eq_ok_iff (reaches_nil _ _), resolves_reference_iff]
  simp [hl]

theorem Direct.resolve_eq_ok_iff {m : ModulePath} {e : TypeExpr} {s : Schema} :
    Direct.resolve env hops m e = .ok s ↔ Resolves env hops m e s :=
  Direct.expand_eq_ok_iff fun name _ _ => Direct.reference_eq_ok_iff (reaches_nil m name)

end CallSchema
