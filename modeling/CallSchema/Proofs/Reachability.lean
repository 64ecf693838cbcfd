import CallSchema.Proofs.Search

/-! # Bounded reachability

A lookup goes on, along the imports of a module, from a pair that has no answer of its own. What it
answers is the own answer of a pair within its hops, and it answers nothing only if no pair within
its hops has an answer. A walk that comes back to a pair can be cut there, so that refusing the
pairs that are being looked up loses nothing.
-/

namespace CallSchema

theorem Lookup.first_eq_missing_iff {answers : List Lookup} :
    first answers = .missing ↔ ∀ a ∈ answers, a = .missing := by
  refine ⟨fun h => ?_, first_eq_missing⟩
  induction answers with
  | nil => simp
  | cons a answers ih =>
    cases a with
    | missing => exact List.forall_mem_cons.mpr ⟨rfl, ih h⟩
    | found key d => cases h
    | external => cases h

namespace Environment

def Defines (env : Environment) (key : TypeKey) : Prop :=
  ∃ d, env.catalog.find? key = some d

/-- Whether the name is bound by an absolute import of the module. -/
def IsExternal (env : Environment) (key : TypeKey) : Prop :=
  ∃ scope, env.scopes.find? key.module = some scope ∧ key.name ∈ scope.external

/-- Whether the pair has an answer of its own, so that a lookup ends there. -/
def Terminal (env : Environment) (key : TypeKey) : Prop :=
  env.Defines key ∨ env.IsExternal key

/-- A step of a lookup: to what the name is bound to, or to the same name in a module that a
relative import leads to. -/
inductive Step (env : Environment) (key : TypeKey) : TypeKey → Prop
  | binding {scope : Scope} {target : TypeKey} : ¬ env.Terminal key →
      env.scopes.find? key.module = some scope → scope.bindings.find? key.name = some target →
      Step env key target
  | relative {scope : Scope} {m : ModulePath} : ¬ env.Terminal key →
      env.scopes.find? key.module = some scope → m ∈ scope.relative →
      Step env key ⟨m, key.name⟩

/-- At most `hops` steps lead from `key` to `last`, through no pair of `barred`. -/
inductive Within (env : Environment) (barred : List TypeKey) : Nat → TypeKey → TypeKey → Prop
  | here {hops : Nat} {key : TypeKey} : key ∉ barred → Within env barred hops key key
  | step {hops : Nat} {key next last : TypeKey} : key ∉ barred → env.Step key next →
      Within env barred hops next last → Within env barred (hops + 1) key last

variable {env : Environment} {hops : Nat} {key : TypeKey} {path : List TypeKey}

theorem settled?_eq_some_iff {answer : Lookup} : env.settled? key = some answer ↔
    (∃ d, env.catalog.find? key = some d ∧ answer = .found key d) ∨
      env.catalog.find? key = none ∧ env.IsExternal key ∧ answer = .external := by
  unfold settled? IsExternal
  cases env.catalog.find? key with
  | some d => simp [eq_comm]
  | none =>
    cases env.scopes.find? key.module with
    | none => simp
    | some scope => simp [Scope.isExternal, eq_comm]

theorem settled?_found {found : TypeKey} {d : Definition}
    (h : env.settled? key = some (.found found d)) :
    found = key ∧ env.catalog.find? found = some d := by
  rcases settled?_eq_some_iff.mp h with ⟨d', hd, ha⟩ | ⟨-, -, ha⟩
  · cases ha
    exact ⟨rfl, hd⟩
  · cases ha

theorem isExternal_of_settled? (h : env.settled? key = some .external) : env.IsExternal key := by
  rcases settled?_eq_some_iff.mp h with ⟨d', -, ha⟩ | ⟨-, hx, -⟩
  · cases ha
  · exact hx

theorem settled?_eq_none_iff : env.settled? key = none ↔ ¬ env.Terminal key := by
  unfold settled? Terminal Defines IsExternal
  cases env.catalog.find? key with
  | some d => simp
  | none =>
    cases env.scopes.find? key.module with
    | none => simp
    | some scope => simp [Scope.isExternal]

theorem terminal_of_settled? {answer : Lookup} (h : env.settled? key = some answer) :
    env.Terminal key := by
  by_contra ht
  simp [settled?_eq_none_iff.mpr ht] at h

theorem mem_steps_iff {next : TypeKey} : next ∈ env.steps key ↔
    ∃ scope, env.scopes.find? key.module = some scope ∧
      (scope.bindings.find? key.name = some next ∨ ∃ m ∈ scope.relative, ⟨m, key.name⟩ = next) := by
  unfold steps
  cases env.scopes.find? key.module with
  | none => simp
  | some scope => simp [Scope.sources]

theorem Step.mem_steps {next : TypeKey} (h : env.Step key next) : next ∈ env.steps key := by
  rw [mem_steps_iff]
  rcases h with ⟨-, hscope, hbound⟩ | ⟨-, hscope, hm⟩
  · exact ⟨_, hscope, .inl hbound⟩
  · exact ⟨_, hscope, .inr ⟨_, hm, rfl⟩⟩

theorem step_of_mem_steps {next : TypeKey} (hs : env.settled? key = none)
    (h : next ∈ env.steps key) : env.Step key next := by
  have ht := settled?_eq_none_iff.mp hs
  obtain ⟨scope, hscope, hbound | ⟨m, hm, rfl⟩⟩ := mem_steps_iff.mp h
  · exact .binding ht hscope hbound
  · exact .relative ht hscope hm

namespace Within

variable {barred : List TypeKey} {last : TypeKey}

theorem mono (h : env.Within barred hops key last) {more : Nat} (hle : hops ≤ more) :
    env.Within barred more key last := by
  induction h generalizing more with
  | here hb => exact .here hb
  | step hb hstep _ ih =>
    obtain ⟨left, rfl⟩ := Nat.exists_eq_add_one_of_ne_zero (Nat.ne_zero_of_lt hle)
    exact .step hb hstep (ih (Nat.le_of_succ_le_succ hle))

theorem of_subset (h : env.Within barred hops key last) {fewer : List TypeKey}
    (hsub : fewer ⊆ barred) : env.Within fewer hops key last := by
  induction h with
  | here hb => exact .here fun hf => hb (hsub hf)
  | step hb hstep _ ih => exact .step (fun hf => hb (hsub hf)) hstep ih

/-- A walk either avoids a pair or can be cut where it leaves the pair for the last time. -/
theorem cut (h : env.Within barred hops key last) (other : TypeKey) :
    env.Within (other :: barred) hops key last ∨ last = other ∨
      ∃ left next, left < hops ∧ env.Step other next ∧
        env.Within (other :: barred) left next last := by
  induction h with
  | @here hops key hb =>
    by_cases he : key = other
    · exact .inr (.inl he)
    · exact .inl (.here (List.not_mem_cons_of_ne_of_not_mem he hb))
  | @step hops key next last hb hstep _ ih =>
    rcases ih with hrest | hlast | ⟨left, next', hlt, hstep', hrest⟩
    · by_cases he : key = other
      · exact .inr (.inr ⟨hops, next, Nat.lt_succ_self hops, he ▸ hstep, hrest⟩)
      · exact .inl (.step (List.not_mem_cons_of_ne_of_not_mem he hb) hstep hrest)
    · exact .inr (.inl hlast)
    · exact .inr (.inr ⟨left, next', Nat.lt_succ_of_lt hlt, hstep', hrest⟩)

/-- What holds of a pair and is kept by every step holds wherever the steps lead. -/
theorem preserves {P : TypeKey → Prop} (hsteps : ∀ key, P key → ∀ next, env.Step key next → P next)
    (h : env.Within barred hops key last) (hkey : P key) : P last := by
  induction h with
  | here _ => exact hkey
  | step _ hstep _ ih => exact ih (hsteps _ hkey _ hstep)

end Within

/-- An answer of the search is the own answer of a pair within its hops. -/
theorem search_within {answer : Lookup} (h : env.search hops path key = answer)
    (hne : answer ≠ .missing) :
    ∃ last, env.Within path hops key last ∧ env.settled? last = some answer := by
  induction hops generalizing path key with
  | zero =>
    by_cases hp : key ∈ path
    · exact absurd (h.symm.trans (search_of_mem 0 hp)) hne
    · cases hs : env.settled? key with
      | some own => exact ⟨key, .here hp, by rw [hs, ← h, search_of_settled 0 hp hs]⟩
      | none => exact absurd (h.symm.trans (search_zero path hs)) hne
  | succ left ih =>
    by_cases hp : key ∈ path
    · exact absurd (h.symm.trans (search_of_mem (left + 1) hp)) hne
    · cases hs : env.settled? key with
      | some own => exact ⟨key, .here hp, by rw [hs, ← h, search_of_settled (left + 1) hp hs]⟩
      | none =>
        rw [search_succ left hp hs] at h
        obtain ⟨next, hnext, hanswer⟩ := List.mem_map.mp (Lookup.first_mem (h ▸ hne))
        obtain ⟨last, hlast, hsettled⟩ := ih (hanswer.trans h)
        have hrest := hlast.of_subset (List.subset_cons_self key path)
        exact ⟨last, .step hp (step_of_mem_steps hs hnext) hrest, hsettled⟩

theorem settled?_of_search (h : env.search hops path key = .missing) (hp : key ∉ path) :
    env.settled? key = none := by
  cases hs : env.settled? key with
  | none => rfl
  | some answer =>
    have hanswer : answer = .missing := (search_of_settled hops hp hs).symm.trans h
    exact absurd (hanswer ▸ hs) settled?_ne_missing

/-- The search leaves no pair within its hops out. -/
theorem search_complete (h : env.search hops path key = .missing) {last : TypeKey}
    (hw : env.Within path hops key last) : ¬ env.Terminal last := by
  induction hops generalizing path key with
  | zero =>
    cases hw with
    | here hp => exact settled?_eq_none_iff.mp (settled?_of_search h hp)
  | succ left ih =>
    have hp : key ∉ path := by cases hw <;> assumption
    have hs := settled?_of_search h hp
    rw [search_succ left hp hs, Lookup.first_eq_missing_iff] at h
    -- The rest of the walk may come back to `key`, which the search then refuses.
    have hnext : ∀ next, env.Step key next → env.Within (key :: path) left next last →
        ¬ env.Terminal last := fun next hstep hrest =>
      ih (h _ (List.mem_map_of_mem hstep.mem_steps)) hrest
    cases hw with
    | here _ => exact settled?_eq_none_iff.mp hs
    | step _ hstep hrest =>
      rcases hrest.cut key with havoid | rfl | ⟨fewer, next', hlt, hstep', havoid⟩
      · exact hnext _ hstep havoid
      · exact settled?_eq_none_iff.mp hs
      · exact hnext next' hstep' (havoid.mono (Nat.le_of_lt hlt))

theorem search_eq_missing_iff : env.search hops path key = .missing ↔
    ∀ last, env.Within path hops key last → ¬ env.Terminal last := by
  refine ⟨fun h last => search_complete h, fun h => ?_⟩
  by_contra hne
  obtain ⟨last, hlast, hs⟩ := search_within rfl hne
  exact h last hlast (terminal_of_settled? hs)

theorem search_nil (env : Environment) (hops : Nat) (key : TypeKey) :
    env.search hops [] key = env.lookup hops key := by
  have h := (env.lookup_finds hops key).answer
  simpa [lookup, Lookup.first] using h.symm

theorem lookup_within {answer : Lookup} (h : env.lookup hops key = answer)
    (hne : answer ≠ .missing) :
    ∃ last, env.Within [] hops key last ∧ env.settled? last = some answer :=
  search_within ((env.search_nil hops key).trans h) hne

theorem lookup_eq_missing_iff : env.lookup hops key = .missing ↔
    ∀ last, env.Within [] hops key last → ¬ env.Terminal last := by
  rw [← search_nil, search_eq_missing_iff]

/-- A lookup is missing exactly if no pair with an answer is within its hops, and otherwise it gives
the answer of such a pair. So more hops never lose an answer. -/
theorem lookup_reachability (env : Environment) (hops : Nat) (key : TypeKey) :
    (env.lookup hops key = .missing ↔
        ¬ ∃ last, env.Within [] hops key last ∧ env.Terminal last) ∧
      (∀ found d, env.lookup hops key = .found found d →
        env.catalog.find? found = some d ∧ env.Within [] hops key found) ∧
      (env.lookup hops key = .external →
        ∃ last, env.Within [] hops key last ∧ env.IsExternal last) ∧
      ∀ more, hops ≤ more → env.lookup hops key ≠ .missing → env.lookup more key ≠ .missing := by
  refine ⟨?_, fun found d h => ?_, fun h => ?_, fun more hle h hmore => h ?_⟩
  · simpa using lookup_eq_missing_iff
  · obtain ⟨last, hlast, hs⟩ := lookup_within h (by simp)
    obtain ⟨rfl, hd⟩ := settled?_found hs
    exact ⟨hd, hlast⟩
  · obtain ⟨last, hlast, hs⟩ := lookup_within h (by simp)
    exact ⟨last, hlast, isExternal_of_settled? hs⟩
  · rw [lookup_eq_missing_iff] at hmore ⊢
    exact fun last hlast => hmore last (hlast.mono hle)

/-- A module's own definition comes first, whatever the module imports. -/
theorem lookup_own {d : Definition} (h : env.catalog.find? key = some d) :
    env.lookup hops key = .found key d := by
  have hs : env.settled? key = some (.found key d) := settled?_eq_some_iff.mpr (.inl ⟨d, h, rfl⟩)
  rw [← search_nil]
  exact search_of_settled hops List.not_mem_nil hs

/-- A pair that is bound by an explicit import asks the target of the import first. -/
theorem lookup_bound {target : TypeKey} {scope : Scope} (hs : env.settled? key = none)
    (hscope : env.scopes.find? key.module = some scope)
    (hbound : scope.bindings.find? key.name = some target) (left : Nat) :
    env.lookup (left + 1) key = (env.search left [key] target).orElse
      (.first (scope.relative.map fun m => env.search left [key] ⟨m, key.name⟩)) := by
  have hsteps : env.steps key = target :: scope.relative.map fun m => ⟨m, key.name⟩ := by
    simp [steps, hscope, Scope.sources, hbound]
  rw [← search_nil, search_succ left List.not_mem_nil hs, hsteps, List.map_cons, List.map_map]
  rfl

theorem within_of_search_found {found : TypeKey} {d : Definition}
    (h : env.search hops path key = .found found d) : env.Within [] hops key found := by
  obtain ⟨last, hlast, hs⟩ := search_within h (by simp)
  rw [(settled?_found hs).1]
  exact hlast.of_subset (List.nil_subset path)

/-- A name that is bound by an explicit import means what steps from the target of the import lead
to. Only if they lead to no answer, unless through the name itself, it means what the name leads to
in a module of a relative import. -/
theorem lookup_explicit_import (env : Environment) (hops : Nat) (key target : TypeKey)
    (scope : Scope) (hown : env.catalog.find? key = none)
    (hscope : env.scopes.find? key.module = some scope) (hexternal : key.name ∉ scope.external)
    (hbound : scope.bindings.find? key.name = some target) :
    (∃ found d left, env.lookup hops key = .found found d ∧ hops = left + 1 ∧
        (env.Within [] left target found ∨
          (¬ ∃ last, env.Within [key] left target last ∧ env.Terminal last) ∧
            ∃ m ∈ scope.relative, env.Within [] left ⟨m, key.name⟩ found)) ∨
      env.lookup hops key = .external ∨ env.lookup hops key = .missing := by
  have hs : env.settled? key = none := by
    simp [settled?, hown, hscope, Scope.isExternal, hexternal]
  cases hl : env.lookup hops key with
  | external => exact .inr (.inl rfl)
  | missing => exact .inr (.inr rfl)
  | found found d =>
    cases hops with
    | zero => simp [← search_nil, search_zero [] hs] at hl
    | succ left =>
      refine .inl ⟨found, d, left, rfl, rfl, ?_⟩
      rw [lookup_bound hs hscope hbound] at hl
      cases htarget : env.search left [key] target with
      | external => simp [htarget, Lookup.orElse] at hl
      | found found' d' =>
        rw [htarget] at hl
        exact .inl (within_of_search_found (htarget.trans hl))
      | missing =>
        rw [htarget, Lookup.orElse] at hl
        refine .inr ⟨?_, ?_⟩
        · rintro ⟨last, hlast, hterminal⟩
          exact search_complete htarget hlast hterminal
        · have hne : Lookup.found found d ≠ .missing := by simp
          obtain ⟨m, hm, hanswer⟩ := List.mem_map.mp (Lookup.first_mem (hl ▸ hne))
          exact ⟨m, hm, within_of_search_found (hanswer.trans hl)⟩

/-- A service that imports the `Address` of its types under the name `Port`. The types have a `Port`
of their own but no `Address`. -/
def misnamed : Environment where
  catalog := [(⟨⟨"pkg.types"⟩, "Port"⟩, .alias (.primitive .int))]
  scopes := [(⟨"pkg.service"⟩, Scope.empty.bind "Port" ⟨⟨"pkg.types"⟩, "Address"⟩),
    (⟨"pkg.types"⟩, .empty)]

theorem not_within_misnamed (hops : Nat) :
    ¬ misnamed.Within [] hops ⟨⟨"pkg.types"⟩, "Address"⟩ ⟨⟨"pkg.types"⟩, "Port"⟩ := by
  intro h
  generalize hlast : (⟨⟨"pkg.types"⟩, "Port"⟩ : TypeKey) = last at h
  cases h with
  | here _ => simp at hlast
  | step _ hstep _ =>
    rcases hstep with ⟨-, hscope, hbound⟩ | ⟨-, hscope, hm⟩
    · cases hscope
      cases hbound
    · cases hscope
      cases hm

/-- The service gets the `Port` of its types, to which its import does not lead. -/
theorem lookup_misnamed :
    misnamed.catalog.find? ⟨⟨"pkg.service"⟩, "Port"⟩ = none ∧
      (∃ scope, misnamed.scopes.find? ⟨"pkg.service"⟩ = some scope ∧ "Port" ∉ scope.external ∧
        scope.bindings.find? "Port" = some ⟨⟨"pkg.types"⟩, "Address"⟩) ∧
      misnamed.lookup 16 ⟨⟨"pkg.service"⟩, "Port"⟩ =
        .found ⟨⟨"pkg.types"⟩, "Port"⟩ (.alias (.primitive .int)) ∧
      ¬ misnamed.Within [] 15 ⟨⟨"pkg.types"⟩, "Address"⟩ ⟨⟨"pkg.types"⟩, "Port"⟩ :=
  ⟨rfl, ⟨_, rfl, List.not_mem_nil, rfl⟩, rfl, not_within_misnamed 15⟩

/-- Its import leads to no answer at all. -/
theorem lookup_explicit_import_misnamed :
    ∃ scope, misnamed.catalog.find? ⟨⟨"pkg.service"⟩, "Port"⟩ = none ∧
      misnamed.scopes.find? ⟨"pkg.service"⟩ = some scope ∧ "Port" ∉ scope.external ∧
      scope.bindings.find? "Port" = some ⟨⟨"pkg.types"⟩, "Address"⟩ ∧
      ¬ ∃ last, misnamed.Within [⟨⟨"pkg.service"⟩, "Port"⟩] 15 ⟨⟨"pkg.types"⟩, "Address"⟩ last ∧
        misnamed.Terminal last := by
  refine ⟨_, rfl, rfl, List.not_mem_nil, rfl, ?_⟩
  have hfound : misnamed.lookup 16 ⟨⟨"pkg.service"⟩, "Port"⟩ =
    .found ⟨⟨"pkg.types"⟩, "Port"⟩ (.alias (.primitive .int)) := rfl
  rcases lookup_explicit_import misnamed 16 ⟨⟨"pkg.service"⟩, "Port"⟩ ⟨⟨"pkg.types"⟩, "Address"⟩ _
    rfl rfl List.not_mem_nil rfl with ⟨found, d, left, hl, hleft, hwithin | ⟨hnone, -⟩⟩ | hl | hl
  · cases hfound.symm.trans hl
    cases hleft
    exact absurd hwithin (not_within_misnamed 15)
  · cases hleft
    exact hnone
  · cases hfound.symm.trans hl
  · cases hfound.symm.trans hl

end Environment

end CallSchema
