import CallSchema.Proofs.Cycles

/-! # Limits on nested calls

Resolution does not follow the structure of type expressions: a name leads to a definition, which
may be larger than the expression and may lead back to it. Here the recursion is written out call by
call and is stopped if calls nest deeper than allowed or if the definitions being resolved are not
as they should be. With limits that depend only on the number of definitions and on the depth of
type expressions it is never stopped, whatever the definitions and imports are.
-/

namespace CallSchema

/-- A computation of a resolver that may be stopped before it has a result. -/
abbrev Limited (α : Type) := ExceptT Fault (StateT Resolver Option) α

namespace Limited

variable {α β : Type}

def stop : Limited α :=
  ExceptT.mk fun _ => none

/-- Stops unless the definitions being resolved are allowed. -/
def call (allowed : List TypeKey → Bool) (body : Limited α) : Limited α :=
  ExceptT.mk fun r => if allowed r.visiting then body.run r else none

/-- Takes the definition off again and remembers its schema. -/
def leave (key : TypeKey) (p : Except Fault Schema × Resolver) : Except Fault Schema × Resolver :=
  let left := { p.2 with visiting := p.2.visiting.dropLast }
  match p.1 with
  | .ok s => (.ok s, { left with memo := left.memo.enter key s })
  | .error fault => (.error fault, left)

def visit (key : TypeKey) (body : Limited Schema) : Limited Schema :=
  ExceptT.mk fun r =>
    (body.run { r with visiting := r.visiting ++ [key] }).map (leave key)

/-- The schema of a definition, given those of its parts. -/
def definition (expression : TypeExpr → Limited Schema) (record : RecordType → Limited Schema) :
    Definition → Limited Schema
  | .alias body => expression body
  | .record declared => record declared
  | .invalid fault => throw fault

mutual

/-- The schema of a type expression. Of all calls at most `calls` are nested in each other, and of
those that look a name up at most `names`; each starts with definitions being resolved that are
allowed. -/
def expression (env : Environment) (hops : Nat) (allowed : List TypeKey → Bool) :
    Nat → Nat → ModulePath → TypeExpr → Limited Schema
  | 0, _, _, _ => stop
  | calls + 1, names, m, e => call allowed <|
    match e with
    | .primitive p => pure (.ofPrimitive p)
    | .none => pure .null
    | .any => pure .any
    | .list item => do
      let items ← expression env hops allowed calls names m item
      pure (.array items)
    | .dict key value => do
      let keys ← expression env hops allowed calls names m key
      if keys.isString then
        let values ← expression env hops allowed calls names m value
        pure (.map values)
      else
        throw (.unsupportedKeyType (TypeExpr.dict key value).text)
    | .optional inner => union env hops allowed calls names m [inner, .none]
    | .union members => union env hops allowed calls names m members
    | .literal members => do
      let values ← ExceptT.mk (pure (Resolution.literals members))
      pure (.enum values)
    | .reference name => reference env hops allowed calls names m name
    | .external name => throw (.externalType name m.text)
    | .unsupported name => throw (.unsupportedType name "type has no JSON representation")
termination_by structural calls => calls

def union (env : Environment) (hops : Nat) (allowed : List TypeKey → Bool) :
    Nat → Nat → ModulePath → List TypeExpr → Limited Schema
  | 0, _, _, _ => stop
  | calls + 1, names, m, members => call allowed do
    let schemas ← members.mapM (expression env hops allowed calls names m)
    pure (.unite schemas)
termination_by structural calls => calls

def record (env : Environment) (hops : Nat) (allowed : List TypeKey → Bool) :
    Nat → Nat → ModulePath → RecordType → Limited Schema
  | 0, _, _, _ => stop
  | calls + 1, names, m, r => call allowed do
    let properties ← r.fields.mapM fun field => do
      let schema ← expression env hops allowed calls names m field.2
      pure (field.1, schema)
    pure (.record properties (if r.total then r.fields.keys else []))
termination_by structural calls => calls

def reference (env : Environment) (hops : Nat) (allowed : List TypeKey → Bool) :
    Nat → Nat → ModulePath → String → Limited Schema
  | 0, _, _, _ => stop
  | _ + 1, 0, _, _ => stop
  | calls + 1, names + 1, m, name => call allowed <|
    match env.lookup hops ⟨m, name⟩ with
    | .external => throw (.externalType name m.text)
    | .missing => throw (.unresolvedType name m.text)
    | .found key d => do
      let r ← get
      match r.memo.find? key with
      | some schema => pure schema
      | none =>
        if key ∈ r.visiting then throw (Resolution.cycle r.visiting key)
        else visit key (definition (expression env hops allowed calls names key.module)
          (record env hops allowed calls names key.module) d)
termination_by structural calls => calls

end

/-- While `visiting` is being resolved, the one computation is not stopped, does as the other one
does and leaves the stack as it was. -/
def Follows (visiting : List TypeKey) (x : Limited α) (y : Resolution α) : Prop :=
  ∀ r, r.visiting = visiting → x.run r = some (y.run r) ∧ (y.run r).2.visiting = visiting

section

variable {visiting : List TypeKey} {allowed : List TypeKey → Bool}

theorem follows_pure (a : α) : Follows visiting (pure a) (pure a) :=
  fun _ hr => ⟨rfl, hr⟩

theorem follows_throw (fault : Fault) :
    Follows visiting (throw fault : Limited α) (throw fault) :=
  fun _ hr => ⟨rfl, hr⟩

theorem follows_lift (result : Except Fault α) :
    Follows visiting (ExceptT.mk (pure result)) (ExceptT.mk (pure result)) :=
  fun _ hr => ⟨rfl, hr⟩

theorem run_bind (x : Limited α) (f : α → Limited β) (r : Resolver) :
    (x >>= f).run r = (x.run r).bind fun p =>
      match p.1 with
      | .ok a => (f a).run p.2
      | .error fault => some (.error fault, p.2) := by
  rw [ExceptT.run_bind]
  simp only [bind, StateT.bind]
  congr 1
  funext p
  obtain ⟨result, after⟩ := p
  cases result <;> rfl

theorem Follows.bind {x : Limited α} {y : Resolution α} {f : α → Limited β} {g : α → Resolution β}
    (hx : Follows visiting x y) (hf : ∀ a, Follows visiting (f a) (g a)) :
    Follows visiting (x >>= f) (y >>= g) := by
  intro r hr
  obtain ⟨hrun, hafter⟩ := hx r hr
  rw [run_bind, hrun, CallSchema.run_bind, Option.bind_some]
  cases (y.run r).1 with
  | error fault => exact ⟨rfl, hafter⟩
  | ok a => exact hf a _ hafter

theorem follows_get_bind {f : Resolver → Limited β} {g : Resolver → Resolution β}
    (h : ∀ r, r.visiting = visiting → Follows visiting (f r) (g r)) :
    Follows visiting (get >>= f) (get >>= g) :=
  fun r hr => h r hr r hr

theorem Follows.call {x : Limited α} {y : Resolution α} (hx : Follows visiting x y)
    (h : allowed visiting = true) : Follows visiting (call allowed x) y := by
  intro r hr
  have hcall : (Limited.call allowed x).run r = x.run r := by
    rw [Limited.call, ExceptT.run_mk, hr, if_pos h]
  rw [hcall]
  exact hx r hr

theorem Follows.visit {x : Limited Schema} {y : Resolution Schema} {key : TypeKey}
    (hx : Follows (visiting ++ [key]) x y) :
    Follows visiting (visit key x) (Resolution.visit key y) := by
  intro r hr
  obtain ⟨hrun, hafter⟩ := hx { r with visiting := r.visiting ++ [key] } (by rw [hr])
  have hleave : (Resolution.visit key y).run r =
      leave key (y.run { r with visiting := r.visiting ++ [key] }) :=
    Resolution.run_visit key y r
  have hrun' : (Limited.visit key x).run r =
      some (leave key (y.run { r with visiting := r.visiting ++ [key] })) := by
    rw [Limited.visit, ExceptT.run_mk, hrun, Option.map_some]
  refine ⟨hrun'.trans (congrArg some hleave.symm), ?_⟩
  rw [hleave, leave]
  cases (y.run { r with visiting := r.visiting ++ [key] }).1 <;> simp [hafter]

end

end Limited

namespace TypeExpr

mutual

/-- The number of type expressions that are nested in each other. -/
def depth : TypeExpr → Nat
  | .list item => depth item + 1
  | .dict key value => max (depth key) (depth value) + 1
  | .optional inner => depth inner + 1
  | .union members => depthAll members + 1
  | .primitive _ | .none | .any | .literal _ | .reference _ | .external _ | .unsupported _ => 1

def depthAll : List TypeExpr → Nat
  | [] => 0
  | e :: es => max (depth e) (depthAll es)

end

theorem depth_pos (e : TypeExpr) : 0 < e.depth := by
  cases e <;> simp [depth]

theorem depth_le_depthAll {e : TypeExpr} {es : List TypeExpr} (h : e ∈ es) :
    e.depth ≤ depthAll es := by
  induction es with
  | nil => exact absurd h List.not_mem_nil
  | cons first es ih =>
    rw [depthAll]
    rcases List.mem_cons.mp h with rfl | h
    · exact Nat.le_max_left _ _
    · exact (ih h).trans (Nat.le_max_right _ _)

end TypeExpr

def Definition.depth : Definition → Nat
  | .alias body => body.depth
  | .record r => TypeExpr.depthAll (r.fields.map Prod.snd)
  | .invalid _ => 0

/-- The largest depth of a type expression in a definition. -/
def Environment.depth (env : Environment) : Nat :=
  (env.catalog.map fun p => p.2.depth).foldr max 0

theorem Environment.depth_le {env : Environment} {key : TypeKey} {d : Definition}
    (h : env.catalog.find? key = some d) : d.depth ≤ env.depth := by
  have hmem : d.depth ∈ env.catalog.map fun p => p.2.depth :=
    List.mem_map.mpr ⟨(key, d), Table.mem_of_find? h, rfl⟩
  unfold Environment.depth
  generalize env.catalog.map (fun p => p.2.depth) = depths at hmem ⊢
  induction depths with
  | nil => exact absurd hmem List.not_mem_nil
  | cons n depths ih =>
    rw [List.foldr_cons]
    rcases List.mem_cons.mp hmem with rfl | hmem
    · exact Nat.le_max_left _ _
    · exact (ih hmem).trans (Nat.le_max_right _ _)

namespace Limited

variable {env : Environment} {hops : Nat} {allowed : List TypeKey → Bool} {m : ModulePath}
  {names : Nat} {visiting : List TypeKey}

theorem expandAll_follows {calls : Nat} {es : List TypeExpr}
    {named : ModulePath → String → Resolution Schema}
    (h : ∀ e ∈ es, Follows visiting (expression env hops allowed calls names m e)
      (Resolution.expand named m e)) :
    Follows visiting (es.mapM (expression env hops allowed calls names m))
      (Resolution.expandAll named m es) := by
  induction es with
  | nil => exact follows_pure []
  | cons e es ih =>
    rw [List.mapM_cons]
    refine (h e List.mem_cons_self).bind fun schema => ?_
    refine (ih fun e he => h e (List.mem_cons_of_mem _ he)).bind fun schemas => ?_
    exact follows_pure (schema :: schemas)

theorem expandFields_follows {calls : Nat} {fields : Table String TypeExpr}
    {named : ModulePath → String → Resolution Schema}
    (h : ∀ e ∈ fields.map Prod.snd, Follows visiting
      (expression env hops allowed calls names m e) (Resolution.expand named m e)) :
    Follows visiting (fields.mapM fun field => do
      let schema ← expression env hops allowed calls names m field.2
      pure (field.1, schema)) (Resolution.expandFields named m fields) := by
  induction fields with
  | nil => exact follows_pure []
  | cons field fields ih =>
    rw [List.mapM_cons, bind_assoc]
    refine (h field.2 List.mem_cons_self).bind fun schema => ?_
    rw [pure_bind]
    refine (ih fun e he => h e (List.mem_cons_of_mem _ he)).bind fun properties => ?_
    exact follows_pure ((field.1, schema) :: properties)

/-- The number of nested calls from a type expression down to the names in it, and from each of
`names` definitions below it down to the next one. -/
def callsFor (depth names largest : Nat) : Nat :=
  2 * depth + names * (2 * largest + 1)

theorem exists_of_callsFor_le {depth largest calls : Nat}
    (h : callsFor (depth + 1) names largest ≤ calls) :
    ∃ left, calls = left + 2 ∧ callsFor depth names largest ≤ left := by
  unfold callsFor at h ⊢
  exact ⟨calls - 2, by omega, by omega⟩

theorem union_follows (hallowed : allowed visiting = true) {calls : Nat} {es : List TypeExpr}
    {named : ModulePath → String → Resolution Schema}
    (h : ∀ e ∈ es, Follows visiting (expression env hops allowed calls names m e)
      (Resolution.expand named m e)) :
    Follows visiting (union env hops allowed (calls + 1) names m es) (do
      let schemas ← Resolution.expandAll named m es
      pure (.unite schemas)) :=
  ((expandAll_follows h).bind fun _ => follows_pure _).call hallowed

theorem record_follows (hallowed : allowed visiting = true) {calls : Nat} {r : RecordType}
    {named : ModulePath → String → Resolution Schema}
    (h : ∀ e ∈ r.fields.map Prod.snd, Follows visiting
      (expression env hops allowed calls names m e) (Resolution.expand named m e)) :
    Follows visiting (record env hops allowed (calls + 1) names m r)
      (Resolution.expandDefinition named m (.record r)) :=
  ((expandFields_follows h).bind fun _ => follows_pure _).call hallowed

/-- An expression is not stopped if its names are not: two calls for each level lead to them. -/
theorem expression_follows {named : ModulePath → String → Resolution Schema} {largest : Nat}
    (hallowed : allowed visiting = true)
    (hnamed : ∀ calls name, names * (2 * largest + 1) < calls →
      Follows visiting (reference env hops allowed calls names m name) (named m name))
    {e : TypeExpr} {calls : Nat} (hcalls : callsFor e.depth names largest ≤ calls) :
    Follows visiting (expression env hops allowed calls names m e)
      (Resolution.expand named m e) := by
  induction e generalizing calls with
  | primitive | none | any =>
    obtain ⟨left, rfl, -⟩ := exists_of_callsFor_le hcalls
    exact (follows_pure _).call hallowed
  | external | unsupported =>
    obtain ⟨left, rfl, -⟩ := exists_of_callsFor_le hcalls
    exact (follows_throw _).call hallowed
  | literal members =>
    obtain ⟨left, rfl, -⟩ := exists_of_callsFor_le hcalls
    exact ((follows_lift _).bind fun _ => follows_pure _).call hallowed
  | list item ih =>
    obtain ⟨left, rfl, hleft⟩ := exists_of_callsFor_le hcalls
    have hitem := ih (hleft.trans (Nat.le_succ left))
    exact (hitem.bind fun _ => follows_pure _).call hallowed
  | dict key value ihk ihv =>
    obtain ⟨left, rfl, hleft⟩ := exists_of_callsFor_le hcalls
    have hkey : callsFor key.depth names largest ≤ left + 1 := by
      unfold callsFor at hleft ⊢
      omega
    have hvalue : callsFor value.depth names largest ≤ left + 1 := by
      unfold callsFor at hleft ⊢
      omega
    refine Follows.call ((ihk hkey).bind fun keys => ?_) hallowed
    split
    · exact (ihv hvalue).bind fun _ => follows_pure _
    · exact follows_throw _
  | optional inner ih =>
    obtain ⟨left, rfl, hleft⟩ := exists_of_callsFor_le hcalls
    have hexpand : Resolution.expand named m (.optional inner) = (do
        let schemas ← Resolution.expandAll named m [inner, .none]
        pure (.unite schemas)) := by
      simp [Resolution.expand, Resolution.expandAll]
    rw [hexpand]
    refine Follows.call (union_follows hallowed fun e he => ?_) hallowed
    rcases List.mem_cons.mp he with rfl | he
    · exact ih hleft
    · -- The absent value needs one call, and there is a level for it: `inner` has one too.
      obtain rfl := List.mem_singleton.mp he
      have hpos := inner.depth_pos
      unfold callsFor at hleft
      obtain ⟨last, rfl⟩ := Nat.exists_eq_add_one_of_ne_zero (show left ≠ 0 by omega)
      exact (follows_pure _).call hallowed
  | union members ih =>
    obtain ⟨left, rfl, hleft⟩ := exists_of_callsFor_le hcalls
    refine Follows.call (union_follows hallowed fun e he => ih e he ?_) hallowed
    have hdepth := TypeExpr.depth_le_depthAll he
    unfold callsFor at hleft ⊢
    omega
  | reference name =>
    obtain ⟨left, rfl, hleft⟩ := exists_of_callsFor_le hcalls
    unfold callsFor at hleft
    exact (hnamed (left + 1) name (by omega)).call hallowed

/-- A definition is not stopped if its expressions are not: a record is one more call. -/
theorem definition_follows {named : ModulePath → String → Resolution Schema} {largest : Nat}
    (hallowed : allowed visiting = true)
    (h : ∀ e calls, callsFor e.depth names largest ≤ calls →
      Follows visiting (expression env hops allowed calls names m e) (Resolution.expand named m e))
    {d : Definition} (hd : d.depth ≤ largest) {calls : Nat}
    (hcalls : callsFor largest names largest < calls) :
    Follows visiting (definition (expression env hops allowed calls names m)
      (record env hops allowed calls names m) d) (Resolution.expandDefinition named m d) := by
  unfold callsFor at hcalls
  rcases d with body | declared | fault
  · have hbody : body.depth ≤ largest := hd
    exact h body calls (by unfold callsFor; omega)
  · obtain ⟨left, rfl⟩ := Nat.exists_eq_add_one_of_ne_zero (Nat.ne_zero_of_lt hcalls)
    refine record_follows hallowed fun e he => h e left ?_
    have hfield : e.depth ≤ largest := (TypeExpr.depth_le_depthAll he).trans hd
    unfold callsFor
    omega
  · exact follows_throw fault

/-- A name is not stopped: the definitions being resolved are different definitions of the catalog,
so that one that is entered is one of those left. -/
theorem reference_follows
    (hallowed : ∀ visiting, visiting.Nodup → visiting ⊆ env.catalog.keys → allowed visiting = true)
    (hnames : Resolution.Suffices env names visiting) {calls : Nat} {name : String}
    (hcalls : names * (2 * env.depth + 1) < calls) :
    Follows visiting (reference env hops allowed calls names m name)
      (Resolution.reference env hops names m name) := by
  induction names generalizing visiting m name calls with
  | zero => exact absurd rfl hnames.pos
  | succ names ih =>
    obtain ⟨left, rfl⟩ := Nat.exists_eq_add_one_of_ne_zero (Nat.ne_zero_of_lt hcalls)
    unfold reference Resolution.reference
    refine Follows.call ?_ (hallowed visiting hnames.nodup hnames.subset)
    cases hl : env.lookup hops ⟨m, name⟩ with
    | external => exact follows_throw _
    | missing => exact follows_throw _
    | found key d =>
      have hd := Environment.lookup_found hl
      refine follows_get_bind fun r hr => ?_
      cases r.memo.find? key with
      | some s => exact follows_pure s
      | none =>
        rw [hr]
        by_cases hk : key ∈ visiting
        · simpa only [if_pos hk] using follows_throw _
        · have hinner := hnames.enter hd hk
          have hopen := hallowed _ hinner.nodup hinner.subset
          have hleft : callsFor env.depth names env.depth < left := by
            rw [Nat.succ_mul] at hcalls
            unfold callsFor
            omega
          simp only [if_neg hk]
          refine Follows.visit (definition_follows hopen (fun e calls => ?_)
            (Environment.depth_le hd) hleft)
          exact expression_follows hopen fun calls name hcalls => ih hinner hcalls

end Limited

/-- A limit on nested calls that depends only on the number of definitions and on the largest depth
of a type expression. -/
def callLimit (definitions depth : Nat) : Nat :=
  (definitions + 2) * (2 * depth + 1)

theorem callsFor_le_callLimit (depth definitions largest : Nat) :
    Limited.callsFor depth (definitions + 1) largest ≤
      callLimit definitions (max depth largest) := by
  have hlarger : (definitions + 1) * (2 * largest + 1) ≤
      (definitions + 1) * (2 * max depth largest + 1) :=
    Nat.mul_le_mul_left _ (by omega)
  have hlimit : callLimit definitions (max depth largest) =
      (definitions + 1) * (2 * max depth largest + 1) + (2 * max depth largest + 1) :=
    Nat.succ_mul _ _
  unfold Limited.callsFor
  omega

/-- Resolution returns, in whatever state a resolver has come to and however definitions and imports
lead back to each other: it is not stopped if calls may nest as deep as `callLimit` says, those that
look a name up once more than there are definitions, and each call has to start with different
definitions of the catalog being resolved. -/
theorem Environment.resolve_within_limits (env : Environment) (hops : Nat) (r : Resolver)
    (hr : r.Reachable env hops) (m : ModulePath) (e : TypeExpr) (calls : Nat)
    (hcalls : callLimit env.catalog.length (max e.depth env.depth) ≤ calls) :
    (Limited.expression env hops
      (fun visiting => decide (visiting.Nodup ∧ ∀ key ∈ visiting, key ∈ env.catalog.keys)) calls
      (env.catalog.length + 1) m e).run r = some ((env.resolve hops m e).run r) := by
  have hlimit := (callsFor_le_callLimit e.depth env.catalog.length env.depth).trans hcalls
  refine (Limited.expression_follows ?_ (fun calls name hcalls => ?_) hlimit r
    hr.valid.visiting_eq).1
  · simp
  · exact Limited.reference_follows
      (fun visiting hnodup hsubset => decide_eq_true ⟨hnodup, hsubset⟩)
      Resolution.suffices_nil hcalls

/-- A resolver that was asked for a pair whose halves share their base. -/
def Resolver.ofPair : Resolver :=
  (((Call.resolve ⟨"m"⟩ (.reference "Pair")).answer .sharing 0).run .fresh).2

theorem resolve_within_limits_sharing :
    Resolver.ofPair.Reachable .sharing 0 ∧ Resolver.ofPair.memo.length = 4 ∧
      callLimit 5 2 = 35 ∧
      (Limited.expression .sharing 0 (fun visiting =>
          decide (visiting.Nodup ∧ ∀ key ∈ visiting, key ∈ Environment.sharing.catalog.keys)) 35 6
          ⟨"m"⟩ (.optional (.reference "Loop"))).run .ofPair =
        some (.error (.cyclicDefinition ["m.Loop", "m.Loop"]), .ofPair) := by
  have hreachable : Resolver.ofPair.Reachable .sharing 0 := .call _ .fresh
  refine ⟨hreachable, rfl, rfl, ?_⟩
  exact Environment.resolve_within_limits .sharing 0 .ofPair hreachable ⟨"m"⟩
    (.optional (.reference "Loop")) 35 (Nat.le_refl 35)

end CallSchema
