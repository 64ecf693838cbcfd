import Mathlib.Data.List.Nodup
import CallSchema.Environment.Lookup

/-! # Lookup as a plain search

The plain search keeps no table: it only refuses the pairs that are being looked up. A pair that
the table passes over has been left before without an answer, and so has everything it leads to,
up to pairs that are still being looked up. Both searches therefore find the same definition.
-/

namespace CallSchema

namespace Lookup

def orElse : Lookup → Lookup → Lookup
  | .missing, other => other
  | answer, _ => answer

@[simp] theorem orElse_missing (a : Lookup) : a.orElse .missing = a := by
  cases a <;> rfl

/-- The first answer that is not `missing`. -/
def first : List Lookup → Lookup
  | [] => .missing
  | answer :: rest => answer.orElse (first rest)

theorem first_append (as bs : List Lookup) : first (as ++ bs) = (first as).orElse (first bs) := by
  induction as with
  | nil => rfl
  | cons a as ih => cases a <;> simp [first, orElse, ih]

theorem first_eq_missing {answers : List Lookup} (h : ∀ a ∈ answers, a = .missing) :
    first answers = .missing := by
  induction answers with
  | nil => rfl
  | cons a answers ih =>
    have ha : a = .missing := h a List.mem_cons_self
    subst ha
    exact ih fun b hb => h b (List.mem_cons_of_mem _ hb)

theorem first_mem {answers : List Lookup} (h : first answers ≠ .missing) :
    first answers ∈ answers := by
  induction answers with
  | nil => exact absurd rfl h
  | cons a answers ih =>
    cases a with
    | missing => exact List.mem_cons_of_mem _ (ih h)
    | found key d => exact List.mem_cons_self
    | external => exact List.mem_cons_self

end Lookup

namespace Environment

/-- The search without a table. `path` holds the pairs that are being looked up. -/
def search (env : Environment) (hops : Nat) (path : List TypeKey) (key : TypeKey) : Lookup :=
  if key ∈ path then .missing
  else
    match env.catalog.find? key with
    | some d => .found key d
    | none =>
      match env.scopes.find? key.module with
      | none => .missing
      | some scope =>
        if scope.isExternal key.name then .external
        else
          match hops with
          | 0 => .missing
          | left + 1 =>
            let bound := match scope.bindings.find? key.name with
              | some target => env.search left (key :: path) target
              | none => .missing
            bound.orElse
              (.first (scope.relative.map fun m => env.search left (key :: path) ⟨m, key.name⟩))

variable {env : Environment}

/-- The search in terms of what a module answers itself and of where it leads. -/
theorem search_eq (env : Environment) (hops : Nat) (path : List TypeKey) (key : TypeKey) :
    env.search hops path key =
      if key ∈ path then .missing
      else
        match env.settled? key with
        | some answer => answer
        | none =>
          match hops with
          | 0 => .missing
          | left + 1 => .first ((env.steps key).map (env.search left (key :: path))) := by
  rw [search.eq_def]
  unfold settled? steps
  cases hd : env.catalog.find? key with
  | some d => rfl
  | none =>
    cases hs : env.scopes.find? key.module with
    | none => cases hops <;> rfl
    | some scope =>
      cases hx : scope.isExternal key.name with
      | true => simp [hx]
      | false =>
        cases hops with
        | zero => simp [hx]
        | succ left =>
          simp only [hx, Scope.sources, List.map_append, Lookup.first_append, List.map_map]
          cases scope.bindings.find? key.name with
          | none => rfl
          | some target =>
            simp only [Option.toList, List.map_cons, List.map_nil, Lookup.first,
              Lookup.orElse_missing]
            rfl

section

variable {path : List TypeKey} {key : TypeKey}

theorem search_of_mem (hops : Nat) (hp : key ∈ path) : env.search hops path key = .missing := by
  rw [env.search_eq, if_pos hp]

theorem search_of_settled (hops : Nat) {answer : Lookup} (hp : key ∉ path)
    (hs : env.settled? key = some answer) : env.search hops path key = answer := by
  rw [env.search_eq, if_neg hp, hs]

theorem search_zero (path : List TypeKey) (hs : env.settled? key = none) :
    env.search 0 path key = .missing := by
  rw [env.search_eq, hs]
  simp

theorem search_succ (left : Nat) (hp : key ∉ path) (hs : env.settled? key = none) :
    env.search (left + 1) path key =
      .first ((env.steps key).map (env.search left (key :: path))) := by
  rw [env.search_eq, if_neg hp, hs]

end

namespace Seen

variable {seen : Seen} {key other : TypeKey} {hops left : Nat}

theorem covers_iff :
    seen.covers key hops = true ↔ ∃ b, Table.find? seen key = some b ∧ hops ≤ b := by
  unfold covers
  cases Table.find? seen key <;> simp

theorem covers_of_le (h : seen.covers key hops = true) (hle : left ≤ hops) :
    seen.covers key left = true := by
  obtain ⟨b, hb, hh⟩ := covers_iff.mp h
  exact covers_iff.mpr ⟨b, hb, Nat.le_trans hle hh⟩

theorem covers_enter_self : covers (Table.enter seen key left) key hops = true ↔ hops ≤ left := by
  simp [covers_iff, Table.find?_enter_self]

theorem covers_enter_of_ne (h : key ≠ other) :
    covers (Table.enter seen key left) other hops = seen.covers other hops := by
  simp only [covers, Table.find?_enter_of_ne seen left h]

/-- Entering a pair that is not covered only adds to what is covered. -/
theorem covers_enter (hn : seen.covers key left = false) (h : seen.covers other hops = true) :
    covers (Table.enter seen key left) other hops = true := by
  by_cases he : key = other
  · subst he
    rw [covers_enter_self]
    by_contra hlt
    have hc := covers_of_le h (Nat.le_of_not_le hlt)
    simp [hn] at hc
  · rwa [covers_enter_of_ne he]

/-- With a pair that is opened, all the pairs that are being looked up are covered for the lookups
it makes. -/
theorem covers_opened {path : List TypeKey} (hn : seen.covers key (left + 1) = false)
    (ho : ∀ other ∈ path, seen.covers other (left + 1) = true) :
    ∀ other ∈ key :: path, covers (Table.enter seen key (left + 1)) other left = true := by
  intro other hother
  rcases List.mem_cons.mp hother with rfl | hother
  · exact covers_of_le (covers_enter_self.mpr (Nat.le_refl _)) (Nat.le_succ left)
  · exact covers_of_le (covers_enter hn (ho other hother)) (Nat.le_succ left)

/-- Budgets only grow, and those of at least `hops` stay as they are. -/
structure Grows (hops : Nat) (seen after : Seen) : Prop where
  covers : ∀ key left, seen.covers key left = true → after.covers key left = true
  keeps : ∀ key, seen.covers key hops = true → Table.find? after key = Table.find? seen key

theorem Grows.refl (hops : Nat) (seen : Seen) : Grows hops seen seen :=
  ⟨fun _ _ h => h, fun _ _ => rfl⟩

theorem Grows.trans {a b c : Seen} (h : Grows hops a b) (h' : Grows hops b c) : Grows hops a c :=
  ⟨fun key left hc => h'.covers key left (h.covers key left hc),
    fun key hc => (h'.keeps key (h.covers key hops hc)).trans (h.keeps key hc)⟩

theorem Grows.mono {a b : Seen} (h : Grows left a b) (hle : left ≤ hops) : Grows hops a b :=
  ⟨h.covers, fun key hc => h.keeps key (covers_of_le hc hle)⟩

theorem grows_enter (hn : seen.covers key hops = false) :
    Grows hops seen (Table.enter seen key hops) := by
  refine ⟨fun other left hc => covers_enter hn hc, fun other hc => ?_⟩
  have hne : key ≠ other := by
    rintro rfl
    simp [hn] at hc
  exact Table.find?_enter_of_ne seen hops hne

end Seen

theorem lookupIn_of_covers {seen : Seen} {key : TypeKey} {hops : Nat}
    (h : seen.covers key hops = true) : env.lookupIn hops key seen = (.missing, seen) := by
  rw [lookupIn.eq_def]
  simp [h]

theorem lookupIn_of_settled {seen : Seen} {key : TypeKey} {hops : Nat} {answer : Lookup}
    (h : seen.covers key hops = false) (hs : env.settled? key = some answer) :
    env.lookupIn hops key seen = (answer, Table.enter seen key hops) := by
  rw [lookupIn.eq_def]
  simp [h, hs]

theorem lookupIn_zero {seen : Seen} {key : TypeKey} (h : seen.covers key 0 = false)
    (hs : env.settled? key = none) :
    env.lookupIn 0 key seen = (.missing, Table.enter seen key 0) := by
  rw [lookupIn.eq_def]
  simp [h, hs]

theorem lookupIn_succ {seen : Seen} {key : TypeKey} {left : Nat}
    (h : seen.covers key (left + 1) = false) (hs : env.settled? key = none) :
    env.lookupIn (left + 1) key seen =
      firstFound (env.lookupIn left) (env.steps key) (Table.enter seen key (left + 1)) := by
  rw [lookupIn.eq_def]
  simp [h, hs]

/-- What every single lookup does to the table, a list of lookups does too. -/
theorem firstFound_preserves {look : TypeKey → Seen → Lookup × Seen} {P : Seen → Seen → Prop}
    (refl : ∀ seen, P seen seen) (trans : ∀ {a b c}, P a b → P b c → P a c)
    (step : ∀ key seen, P seen (look key seen).2) (keys : List TypeKey) (seen : Seen) :
    P seen (firstFound look keys seen).2 := by
  induction keys generalizing seen with
  | nil => exact refl seen
  | cons key keys ih =>
    have hstep := step key seen
    unfold firstFound
    split
    · rename_i after heq
      rw [heq] at hstep
      exact trans hstep (ih after)
    · exact hstep

/-- A list of lookups depends on each of them only as far as it is made. -/
theorem firstFound_congr {look look' : TypeKey → Seen → Lookup × Seen} {keys : List TypeKey}
    {seen : Seen}
    (h : ∀ before next after seen', keys = before ++ next :: after →
      firstFound look' before seen = (.missing, seen') → look next seen' = look' next seen') :
    firstFound look keys seen = firstFound look' keys seen := by
  induction keys generalizing seen with
  | nil => rfl
  | cons key keys ih =>
    unfold firstFound
    rw [h [] key keys seen rfl rfl]
    split
    · rename_i after hl
      refine ih fun before next rest seen' hkeys hbefore => ?_
      refine h (key :: before) next rest seen' (by rw [hkeys, List.cons_append]) ?_
      rw [firstFound, hl]
      exact hbefore
    · rfl

theorem lookupIn_grows (env : Environment) (hops : Nat) (key : TypeKey) (seen : Seen) :
    seen.Grows hops (env.lookupIn hops key seen).2 := by
  induction hops generalizing key seen with
  | zero =>
    cases hc : seen.covers key 0 with
    | true => rw [lookupIn_of_covers hc]; exact .refl 0 seen
    | false =>
      cases hs : env.settled? key with
      | some answer => rw [lookupIn_of_settled hc hs]; exact Seen.grows_enter hc
      | none => rw [lookupIn_zero hc hs]; exact Seen.grows_enter hc
  | succ left ih =>
    cases hc : seen.covers key (left + 1) with
    | true => rw [lookupIn_of_covers hc]; exact .refl (left + 1) seen
    | false =>
      cases hs : env.settled? key with
      | some answer => rw [lookupIn_of_settled hc hs]; exact Seen.grows_enter hc
      | none =>
        rw [lookupIn_succ hc hs]
        have hrest := firstFound_preserves (Seen.Grows.refl left) Seen.Grows.trans ih
          (env.steps key) (Table.enter seen key (left + 1))
        exact (Seen.grows_enter hc).trans (hrest.mono (Nat.le_succ left))

/-- A pair outside `path` that the table holds was left without an answer: it has none of its own,
and wherever it leads has been looked at with one hop less. -/
structure Exhausted (env : Environment) (path : List TypeKey) (seen : Seen) : Prop where
  unsettled : ∀ key hops, seen.covers key hops = true → key ∉ path → env.settled? key = none
  steps : ∀ key left, seen.covers key (left + 1) = true → key ∉ path →
    ∀ next ∈ env.steps key, seen.covers next left = true

theorem Exhausted.search_eq_missing {path : List TypeKey} {seen : Seen}
    (h : Exhausted env path seen) {hops : Nat} {wider : List TypeKey} {key : TypeKey}
    (hw : path ⊆ wider) (hc : seen.covers key hops = true) :
    env.search hops wider key = .missing := by
  induction hops generalizing wider key with
  | zero =>
    by_cases hk : key ∈ wider
    · exact search_of_mem 0 hk
    · exact search_zero wider (h.unsettled key 0 hc fun hp => hk (hw hp))
  | succ left ih =>
    by_cases hk : key ∈ wider
    · exact search_of_mem (left + 1) hk
    · have hp : key ∉ path := fun hp => hk (hw hp)
      rw [search_succ left hk (h.unsettled key (left + 1) hc hp)]
      apply Lookup.first_eq_missing
      intro answer ha
      obtain ⟨next, hn, rfl⟩ := List.mem_map.mp ha
      exact ih (List.subset_cons_of_subset key hw) (h.steps key left hc hp next hn)

/-- Opening a pair exempts it, and raising its budget takes nothing from the others. -/
theorem Exhausted.enter {path : List TypeKey} {seen : Seen} (h : Exhausted env path seen)
    {key : TypeKey} {hops : Nat} (hn : seen.covers key hops = false) :
    Exhausted env (key :: path) (Table.enter seen key hops) := by
  constructor
  · intro other left hc hp
    obtain ⟨hne, hp⟩ := not_or.mp (mt List.mem_cons.mpr hp)
    rw [Seen.covers_enter_of_ne (Ne.symm hne)] at hc
    exact h.unsettled other left hc hp
  · intro other left hc hp next hnext
    obtain ⟨hne, hp⟩ := not_or.mp (mt List.mem_cons.mpr hp)
    rw [Seen.covers_enter_of_ne (Ne.symm hne)] at hc
    exact Seen.covers_enter hn (h.steps other left hc hp next hnext)

/-- A pair may be left once all it leads to has been looked at with one hop less. -/
theorem Exhausted.leave {path : List TypeKey} {seen : Seen} {key : TypeKey}
    (h : Exhausted env (key :: path) seen) (hs : env.settled? key = none)
    (hsteps : ∀ left, seen.covers key (left + 1) = true →
      ∀ next ∈ env.steps key, seen.covers next left = true) :
    Exhausted env path seen := by
  constructor
  · intro other left hc hp
    by_cases he : other = key
    · exact he ▸ hs
    · exact h.unsettled other left hc (List.not_mem_cons_of_ne_of_not_mem he hp)
  · intro other left hc hp
    by_cases he : other = key
    · subst he
      exact hsteps left hc
    · exact h.steps other left hc (List.not_mem_cons_of_ne_of_not_mem he hp)

/-- The answer of the plain search, and if there is none, a table that shows it. -/
structure Finds (env : Environment) (hops : Nat) (path : List TypeKey) (keys : List TypeKey)
    (result : Lookup × Seen) : Prop where
  answer : result.1 = .first (keys.map (env.search hops path))
  exhausted : result.1 = .missing → Exhausted env path result.2
  covers : result.1 = .missing → ∀ key ∈ keys, result.2.covers key hops = true

theorem firstFound_finds {left : Nat} {path : List TypeKey}
    (look : ∀ key seen, Exhausted env path seen → (∀ other ∈ path, seen.covers other left = true) →
      Finds env left path [key] (env.lookupIn left key seen))
    (keys : List TypeKey) (seen : Seen) (hx : Exhausted env path seen)
    (ho : ∀ other ∈ path, seen.covers other left = true) :
    Finds env left path keys (firstFound (env.lookupIn left) keys seen) := by
  induction keys generalizing seen with
  | nil => exact ⟨rfl, fun _ => hx, fun _ key hk => absurd hk List.not_mem_nil⟩
  | cons key keys ih =>
    have hkey := look key seen hx ho
    have hgrows := env.lookupIn_grows left key seen
    have hanswer : (env.lookupIn left key seen).1 = env.search left path key := by
      simpa [Lookup.first] using hkey.answer
    unfold firstFound
    split
    · rename_i after heq
      rw [heq] at hkey hgrows hanswer
      have hrest := ih after (hkey.exhausted rfl)
        fun other hp => hgrows.covers other left (ho other hp)
      have hafter := firstFound_preserves (Seen.Grows.refl left) Seen.Grows.trans
        (env.lookupIn_grows left) keys after
      refine ⟨?_, hrest.exhausted, fun hm other hother => ?_⟩
      · rw [hrest.answer, List.map_cons, Lookup.first, ← hanswer]
        rfl
      · rcases List.mem_cons.mp hother with rfl | hother
        · exact hafter.covers other left (hkey.covers rfl other (List.mem_singleton.mpr rfl))
        · exact hrest.covers hm other hother
    · rename_i hne
      have hfound : (env.lookupIn left key seen).1 ≠ .missing := fun hm =>
        hne (env.lookupIn left key seen).2 (by rw [← hm])
      refine ⟨?_, fun hm => absurd hm hfound, fun hm => absurd hm hfound⟩
      rw [List.map_cons, Lookup.first, ← hanswer]
      cases h : (env.lookupIn left key seen).1 with
      | missing => exact absurd h hfound
      | found k d => rfl
      | external => rfl

theorem settled?_ne_missing {key : TypeKey} : env.settled? key ≠ some .missing := by
  unfold settled?
  split
  · simp
  · split
    · split <;> simp
    · simp

theorem finds_of_covers {hops : Nat} {key : TypeKey} {seen : Seen} {path : List TypeKey}
    (hx : Exhausted env path seen) (hc : seen.covers key hops = true) :
    Finds env hops path [key] (env.lookupIn hops key seen) := by
  rw [lookupIn_of_covers hc]
  refine ⟨?_, fun _ => hx, fun _ other hother => ?_⟩
  · simp [Lookup.first, hx.search_eq_missing (List.Subset.refl path) hc]
  · rwa [List.mem_singleton.mp hother]

theorem finds_of_settled {hops : Nat} {key : TypeKey} {seen : Seen} {path : List TypeKey}
    {answer : Lookup} (hp : key ∉ path) (hc : seen.covers key hops = false)
    (hs : env.settled? key = some answer) :
    Finds env hops path [key] (env.lookupIn hops key seen) := by
  have hm : answer ≠ .missing := by
    rintro rfl
    exact settled?_ne_missing hs
  rw [lookupIn_of_settled hc hs]
  refine ⟨?_, fun h => absurd h hm, fun h => absurd h hm⟩
  simp [Lookup.first, search_of_settled hops hp hs]

theorem finds_of_spent {key : TypeKey} {seen : Seen} {path : List TypeKey}
    (hx : Exhausted env path seen) (hc : seen.covers key 0 = false)
    (hs : env.settled? key = none) : Finds env 0 path [key] (env.lookupIn 0 key seen) := by
  rw [lookupIn_zero hc hs]
  refine ⟨?_, fun _ => ?_, fun _ other hother => ?_⟩
  · simp [Lookup.first, search_zero path hs]
  · refine (hx.enter hc).leave hs fun left hl => ?_
    exact absurd (Seen.covers_enter_self.mp hl) (Nat.not_succ_le_zero left)
  · rw [List.mem_singleton.mp hother]
    exact Seen.covers_enter_self.mpr (Nat.le_refl 0)

/-- A pair that has to ask elsewhere is open, and so covered, while the pairs it leads to are looked
up with one hop less. -/
theorem finds_of_steps {left : Nat} {key : TypeKey} {seen : Seen} {path : List TypeKey}
    (look : ∀ next seen, Exhausted env (key :: path) seen →
      (∀ other ∈ key :: path, seen.covers other left = true) →
      Finds env left (key :: path) [next] (env.lookupIn left next seen))
    (hx : Exhausted env path seen) (ho : ∀ other ∈ path, seen.covers other (left + 1) = true)
    (hp : key ∉ path) (hc : seen.covers key (left + 1) = false) (hs : env.settled? key = none) :
    Finds env (left + 1) path [key] (env.lookupIn (left + 1) key seen) := by
  rw [lookupIn_succ hc hs]
  have hself : Seen.covers (Table.enter seen key (left + 1)) key (left + 1) = true :=
    Seen.covers_enter_self.mpr (Nat.le_refl _)
  have hrest := firstFound_finds look (env.steps key) _ (hx.enter hc) (Seen.covers_opened hc ho)
  have hgrows := firstFound_preserves (Seen.Grows.refl left) Seen.Grows.trans
    (env.lookupIn_grows left) (env.steps key) (Table.enter seen key (left + 1))
  refine ⟨?_, fun hm => ?_, fun hm other hother => ?_⟩
  · simp [hrest.answer, Lookup.first, search_succ left hp hs]
  · refine (hrest.exhausted hm).leave hs fun b hb next hnext => ?_
    -- The budget of the pair is still the one it was opened with.
    obtain ⟨c, hfind, hle⟩ := Seen.covers_iff.mp hb
    rw [hgrows.keeps key (Seen.covers_of_le hself (Nat.le_succ left)),
      Table.find?_enter_self] at hfind
    cases hfind
    exact Seen.covers_of_le (hrest.covers hm next hnext) (Nat.le_of_succ_le_succ hle)
  · rw [List.mem_singleton.mp hother]
    exact hgrows.covers key (left + 1) hself

/-- The pairs on `path` are covered because their lookups began with more hops, so that a pair
which is not covered is not on the path either. -/
theorem lookupIn_finds (hops : Nat) (key : TypeKey) (seen : Seen) (path : List TypeKey)
    (hx : Exhausted env path seen) (ho : ∀ other ∈ path, seen.covers other hops = true) :
    Finds env hops path [key] (env.lookupIn hops key seen) := by
  induction hops generalizing key seen path with
  | zero =>
    cases hc : seen.covers key 0 with
    | true => exact finds_of_covers hx hc
    | false =>
      have hp : key ∉ path := fun hp => by simp [ho key hp] at hc
      cases hs : env.settled? key with
      | some answer => exact finds_of_settled hp hc hs
      | none => exact finds_of_spent hx hc hs
  | succ left ih =>
    cases hc : seen.covers key (left + 1) with
    | true => exact finds_of_covers hx hc
    | false =>
      have hp : key ∉ path := fun hp => by simp [ho key hp] at hc
      cases hs : env.settled? key with
      | some answer => exact finds_of_settled hp hc hs
      | none => exact finds_of_steps (fun next seen => ih next seen (key :: path)) hx ho hp hc hs

theorem exhausted_nil : Exhausted env [] [] := by
  constructor
  · intro key hops h
    cases h
  · intro key left h
    cases h

theorem lookup_finds (env : Environment) (hops : Nat) (key : TypeKey) :
    Finds env hops [] [key] (env.lookupIn hops key []) :=
  lookupIn_finds hops key [] [] exhausted_nil fun _ hp => absurd hp List.not_mem_nil

/-- The table is invisible: pruning by budgets never changes which definition is found. -/
theorem lookup_eq_search (env : Environment) (hops : Nat) (key : TypeKey) :
    env.lookup hops key = env.search hops [] key := by
  have h := (env.lookup_finds hops key).answer
  simpa [lookup, Lookup.first] using h

end Environment

end CallSchema
