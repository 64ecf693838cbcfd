import CallSchema.Proofs.Aliases
import CallSchema.Proofs.Inhabitation

/-! # Unions are flat

A union keeps the first of several alternatives that count as the same. Counting as the same is
transitive, so that it does not matter whether alternatives are merged in an inner union before they
are merged in the outer one; and what is without NaN counts as the same as itself, so that nothing
is added by a member that is there already.
-/

namespace CallSchema

/-- The doubles that are no numbers. -/
def Binary64.isNaN (x : Binary64) : Bool :=
  decide (infinite < x.magnitude)

theorem Binary64.numEq_self {x : Binary64} (h : x.isNaN = false) : x.numEq x = true := by
  simp_all [numEq, isNaN]

theorem Binary64.numEq_trans {x y z : Binary64} (hxy : x.numEq y = true) (hyz : y.numEq z = true) :
    x.numEq z = true := by
  simp only [numEq, Bool.or_eq_true, Bool.and_eq_true, beq_iff_eq] at hxy hyz ⊢
  rcases hxy with ⟨rfl, -⟩ | ⟨hx, hy⟩
  · exact hyz
  · rcases hyz with ⟨rfl, -⟩ | ⟨-, hz⟩
    · exact .inr ⟨hx, hy⟩
    · exact .inr ⟨hx, hz⟩

namespace Literal

theorem same_self {l : Literal} (h : ∀ x, l = .float x → x.isNaN = false) : same l l = true := by
  cases l with
  | float x => exact Binary64.numEq_self (h x rfl)
  | _ => simp [same]

theorem same_trans {a b c : Literal} (hab : same a b = true) (hbc : same b c = true) :
    same a c = true := by
  unfold same at hab
  split at hab
  · unfold same at hbc
    split at hbc
    · rename_i hy
      cases hy
      exact Binary64.numEq_trans hab hbc
    · rw [← of_decide_eq_true hbc]
      exact hab
  · rwa [of_decide_eq_true hab]

theorem sameAll_trans {as bs cs : List Literal} (hab : sameAll as bs = true)
    (hbc : sameAll bs cs = true) : sameAll as cs = true := by
  induction as generalizing bs cs with
  | nil =>
    cases bs with
    | nil => exact hbc
    | cons b bs => simp [sameAll] at hab
  | cons a as ih =>
    cases bs with
    | nil => simp [sameAll] at hab
    | cons b bs =>
      cases cs with
      | nil => simp [sameAll] at hbc
      | cons c cs =>
        rw [sameAll, Bool.and_eq_true] at hab hbc ⊢
        exact ⟨same_trans hab.1 hbc.1, ih hab.2 hbc.2⟩

theorem sameAll_self {ls : List Literal} (h : ∀ l ∈ ls, same l l = true) :
    sameAll ls ls = true := by
  induction ls with
  | nil => rfl
  | cons l ls ih =>
    obtain ⟨hl, hls⟩ := List.forall_mem_cons.mp h
    rw [sameAll, hl, ih hls]
    rfl

end Literal

namespace Schema

theorem sameAll_trans {as bs cs : List Schema}
    (ih : ∀ a ∈ as, ∀ b c, same a b = true → same b c = true → same a c = true)
    (hab : sameAll as bs = true) (hbc : sameAll bs cs = true) : sameAll as cs = true := by
  induction as generalizing bs cs with
  | nil =>
    cases bs with
    | nil => exact hbc
    | cons b bs => simp [sameAll] at hab
  | cons a as ihas =>
    cases bs with
    | nil => simp [sameAll] at hab
    | cons b bs =>
      cases cs with
      | nil => simp [sameAll] at hbc
      | cons c cs =>
        rw [sameAll, Bool.and_eq_true] at hab hbc ⊢
        exact ⟨ih a List.mem_cons_self b c hab.1 hbc.1,
          ihas (fun a ha => ih a (List.mem_cons_of_mem _ ha)) hab.2 hbc.2⟩

theorem sameAdditional_trans {a b c : Additional Schema}
    (ih : ∀ s, a = .each s → ∀ t u, same s t = true → same t u = true → same s u = true)
    (hab : sameAdditional a b = true) (hbc : sameAdditional b c = true) :
    sameAdditional a c = true := by
  cases a with
  | anything =>
    cases b with
    | anything => exact hbc
    | _ => simp [sameAdditional] at hab
  | nothing =>
    cases b with
    | nothing => exact hbc
    | _ => simp [sameAdditional] at hab
  | each s =>
    cases b with
    | anything | nothing => simp [sameAdditional] at hab
    | each t =>
      cases c with
      | anything | nothing => simp [sameAdditional] at hbc
      | each u =>
        rw [sameAdditional] at hab hbc ⊢
        exact ih s rfl t u hab hbc

theorem sameProperties_trans {ps qs rs : List (String × Schema)}
    (ih : ∀ p ∈ ps, ∀ t u, same p.2 t = true → same t u = true → same p.2 u = true)
    (hpq : sameProperties ps qs = true) (hqr : sameProperties qs rs = true) :
    sameProperties ps rs = true := by
  rw [sameProperties_iff] at hpq hqr ⊢
  intro p hp
  obtain ⟨t, ht, hpt⟩ := hpq p hp
  obtain ⟨u, hu, htu⟩ := hqr (p.1, t) (Table.mem_of_find? ht)
  exact ⟨u, hu, ih p hp t u hpt htu⟩

/-- To count as the same is transitive, also where properties stand in different orders. -/
theorem same_trans {a b c : Schema} (hab : same a b = true) (hbc : same b c = true) :
    same a c = true := by
  induction a generalizing b c with
  | null | boolean | integer | number | string | anyArray =>
    cases b <;> cases hab
    exact hbc
  | enum values =>
    cases b with
    | enum others =>
      cases c with
      | enum last =>
        rw [same] at hab hbc ⊢
        exact Literal.sameAll_trans hab hbc
      | _ => simp [same] at hbc
    | _ => simp [same] at hab
  | array items ih =>
    cases b with
    | array other =>
      cases c with
      | array last =>
        rw [same] at hab hbc ⊢
        exact ih hab hbc
      | _ => simp [same] at hbc
    | _ => simp [same] at hab
  | mapping rest ih =>
    cases b with
    | mapping other =>
      cases c with
      | mapping last =>
        rw [same] at hab hbc ⊢
        exact sameAdditional_trans (fun s hs t u => ih s hs) hab hbc
      | _ => simp [same] at hbc
    | _ => simp [same] at hab
  | object ps required rest ihp ihr =>
    cases b with
    | object qs others other =>
      cases c with
      | object rs more last =>
        simp only [same, Bool.and_eq_true, beq_iff_eq] at hab hbc ⊢
        obtain ⟨⟨⟨hpq, hprops⟩, rfl⟩, hrest⟩ := hab
        obtain ⟨⟨⟨hqr, hprops'⟩, rfl⟩, hrest'⟩ := hbc
        refine ⟨⟨⟨hpq.trans hqr, ?_⟩, rfl⟩, ?_⟩
        · exact sameProperties_trans (fun p hp t u => ihp p hp) hprops hprops'
        · exact sameAdditional_trans (fun s hs t u => ihr s hs) hrest hrest'
      | _ => simp [same] at hbc
    | _ => simp [same] at hab
  | anyOf variants ih =>
    cases b with
    | anyOf others =>
      cases c with
      | anyOf last =>
        rw [same] at hab hbc ⊢
        exact sameAll_trans (fun s hs t u => ih s hs) hab hbc
      | _ => simp [same] at hbc
    | _ => simp [same] at hab

theorem sameAll_self_iff {ss : List Schema} :
    sameAll ss ss = true ↔ ∀ s ∈ ss, same s s = true := by
  induction ss with
  | nil => simp [sameAll]
  | cons s ss ih => rw [sameAll, Bool.and_eq_true, ih, List.forall_mem_cons]

theorem same_record_self {ps : List (String × Schema)} (required : List String)
    (hn : (Table.keys ps).Nodup) (h : ∀ p ∈ ps, same p.2 p.2 = true) :
    same (.record ps required) (.record ps required) = true := by
  have hps : sameProperties ps ps = true :=
    sameProperties_iff.mpr fun p hp => ⟨p.2, Table.find?_of_mem hn hp, h p hp⟩
  simp [record, same, hps, sameAdditional]

/-- The alternatives that a schema adds to a union. -/
def variants : Schema → List Schema
  | .anyOf nested => nested
  | s => [s]

theorem absorb_eq (kept : List Schema) (s : Schema) :
    absorb kept s = s.variants.foldl addVariant kept := by
  cases s <;> rfl

theorem unite_eq (ss : List Schema) :
    unite ss = .anyOf ((ss.flatMap variants).foldl addVariant []) := by
  have habsorb : absorb = fun kept s => s.variants.foldl addVariant kept :=
    funext fun kept => funext fun s => absorb_eq kept s
  rw [unite, List.foldl_flatMap, habsorb]

theorem same_of_mem_variants {s t : Schema} (hs : same s s = true) (ht : t ∈ s.variants) :
    same t t = true := by
  cases s with
  | anyOf nested => exact sameAll_self_iff.mp (by rwa [same] at hs) t ht
  | _ => exact List.mem_singleton.mp ht ▸ hs

/-- Whether an alternative is left out because an earlier one counts as the same. -/
def Covered (kept : List Schema) (s : Schema) : Prop :=
  ∃ t ∈ kept, same t s = true

theorem addVariant_of_covered {kept : List Schema} {s : Schema} (h : Covered kept s) :
    addVariant kept s = kept := by
  rw [addVariant, if_pos (List.any_eq_true.mpr h)]

theorem addVariant_of_not_covered {kept : List Schema} {s : Schema} (h : ¬ Covered kept s) :
    addVariant kept s = kept ++ [s] := by
  rw [addVariant, if_neg (mt List.any_eq_true.mp h)]

theorem mem_addVariant_of_mem {kept : List Schema} {t : Schema} (ht : t ∈ kept) (s : Schema) :
    t ∈ addVariant kept s := by
  by_cases h : Covered kept s
  · rwa [addVariant_of_covered h]
  · rw [addVariant_of_not_covered h]
    exact List.mem_append_left _ ht

theorem mem_foldl_addVariant_of_mem {kept : List Schema} {t : Schema} (ht : t ∈ kept)
    (ss : List Schema) : t ∈ ss.foldl addVariant kept :=
  List.foldlRecOn ss addVariant ht fun _ h s _ => mem_addVariant_of_mem h s

/-- Every alternative is kept, or left out because of one that is kept. -/
theorem mem_or_covered_foldl {kept ss : List Schema} {s : Schema} (hs : s ∈ ss) :
    s ∈ ss.foldl addVariant kept ∨ Covered (ss.foldl addVariant kept) s := by
  induction ss generalizing kept with
  | nil => exact absurd hs List.not_mem_nil
  | cons first ss ih =>
    rcases List.mem_cons.mp hs with rfl | hs
    · by_cases h : Covered kept s
      · obtain ⟨t, ht, hsame⟩ := h
        exact .inr ⟨t, mem_foldl_addVariant_of_mem (mem_addVariant_of_mem ht s) ss, hsame⟩
      · refine .inl (mem_foldl_addVariant_of_mem ?_ ss)
        rw [addVariant_of_not_covered h]
        exact List.mem_append_right _ List.mem_cons_self
    · exact ih hs

theorem mem_of_mem_foldl_addVariant {kept ss : List Schema} {s : Schema}
    (h : s ∈ ss.foldl addVariant kept) : s ∈ kept ∨ s ∈ ss := by
  induction ss generalizing kept with
  | nil => exact .inl h
  | cons first ss ih =>
    rcases ih h with h | h
    · by_cases hc : Covered kept first
      · rw [addVariant_of_covered hc] at h
        exact .inl h
      · rw [addVariant_of_not_covered hc] at h
        rcases List.mem_append.mp h with h | h
        · exact .inl h
        · exact .inr (List.mem_cons.mpr (.inl (List.mem_singleton.mp h)))
    · exact .inr (List.mem_cons_of_mem _ h)

theorem foldl_addVariant_of_covered {kept ss : List Schema} (h : ∀ s ∈ ss, Covered kept s) :
    ss.foldl addVariant kept = kept := by
  induction ss with
  | nil => rfl
  | cons s ss ih =>
    obtain ⟨hs, hss⟩ := List.forall_mem_cons.mp h
    rw [List.foldl_cons, addVariant_of_covered hs]
    exact ih hss

/-- Alternatives that were merged among themselves are merged with others as they would be on their
own: what was left out counts as the same as one that is merged too. -/
theorem foldl_addVariant_merged (kept ss : List Schema) :
    (ss.foldl addVariant []).foldl addVariant kept = ss.foldl addVariant kept := by
  induction ss using List.reverseRecOn with
  | nil => rfl
  | append_singleton ss s ih =>
    rw [List.foldl_concat, List.foldl_concat]
    by_cases h : Covered (ss.foldl addVariant []) s
    · have hs : Covered (ss.foldl addVariant kept) s := by
        obtain ⟨t, ht, hts⟩ := h
        rw [← ih]
        rcases mem_or_covered_foldl ht with hmem | ⟨u, hu, hut⟩
        · exact ⟨t, hmem, hts⟩
        · exact ⟨u, hu, same_trans hut hts⟩
      rw [addVariant_of_covered h, ih, addVariant_of_covered hs]
    · rw [addVariant_of_not_covered h, List.foldl_concat, ih]

theorem unite_append_unite (as bs cs : List Schema) :
    unite (as ++ [unite bs] ++ cs) = unite (as ++ bs ++ cs) := by
  have hinner : (unite bs).variants = (bs.flatMap variants).foldl addVariant [] := by
    rw [unite_eq, variants]
  rw [unite_eq (as ++ [unite bs] ++ cs), unite_eq (as ++ bs ++ cs)]
  simp only [List.flatMap_append, List.flatMap_singleton, List.foldl_append, hinner,
    foldl_addVariant_merged]

theorem unite_concat_of_mem {ss : List Schema} {s : Schema} (hs : s ∈ ss)
    (hself : same s s = true) : unite (ss ++ [s]) = unite ss := by
  have hcovered : ∀ t ∈ s.variants, Covered ((ss.flatMap variants).foldl addVariant []) t := by
    intro t ht
    rcases mem_or_covered_foldl (List.mem_flatMap.mpr ⟨s, hs, ht⟩) with hmem | hcovered
    · exact ⟨t, hmem, same_of_mem_variants hself ht⟩
    · exact hcovered
  rw [unite_eq, unite_eq, List.flatMap_append, List.flatMap_singleton, List.foldl_append,
    foldl_addVariant_of_covered hcovered]

theorem same_unite_self {ss : List Schema} (h : ∀ s ∈ ss, same s s = true) :
    same (unite ss) (unite ss) = true := by
  rw [unite_eq, same, sameAll_self_iff]
  intro t ht
  rcases mem_of_mem_foldl_addVariant ht with hnil | ht
  · exact absurd hnil List.not_mem_nil
  · obtain ⟨s, hs, ht⟩ := List.mem_flatMap.mp ht
    exact same_of_mem_variants (h s hs) ht

end Schema

/-- Whether no double among literals is a NaN. -/
def NaNFree (members : List LiteralMember) : Prop :=
  ∀ x, .value (.float x) ∈ members → x.isNaN = false

theorem NaNFree.mono {as bs : List LiteralMember} (h : NaNFree bs) (hs : as ⊆ bs) : NaNFree as :=
  fun x hx => h x (hs hx)

/-- What definitions must be for their schemas to count as the same as themselves: the fields of a
record form a table, and no literal is a NaN. -/
structure Environment.Comparable (env : Environment) : Prop where
  tabular : env.Tabular
  nanFree : ∀ key d, env.catalog.find? key = some d → NaNFree d.literalMembers

theorem NaNFree.of_mem {es : List TypeExpr} (h : NaNFree (TypeExpr.literalMembersAll es))
    {e : TypeExpr} (he : e ∈ es) : NaNFree e.literalMembers :=
  h.mono fun _ hl => TypeExpr.mem_literalMembersAll.mpr ⟨e, he, hl⟩

theorem Environment.Meaningful.comparable {env : Environment} (h : env.Meaningful) :
    env.Comparable := by
  refine ⟨h.tabular, fun key d hd x hx => ?_⟩
  have hfinite := h.finite key d hd x hx
  simp only [Binary64.isFinite, decide_eq_true_eq] at hfinite
  exact decide_eq_false (Nat.lt_asymm hfinite)

section

variable {env : Environment} {hops : Nat} {m : ModulePath}

/-- What resolves without NaN counts as the same as itself. -/
theorem Resolves.same_self (henv : env.Comparable) {e : TypeExpr} {s : Schema}
    (h : Resolves env hops m e s) (he : NaNFree e.literalMembers) : Schema.same s s = true := by
  induction h with
  | primitive m p => cases p <;> rfl
  | none m => rfl
  | any m => rfl
  | list _ ih => exact ih he
  | dict _ _ _ ih => exact ih (he.mono (List.subset_append_right _ _))
  | optional _ ih =>
    refine Schema.same_unite_self fun s hs => ?_
    rcases List.mem_cons.mp hs with rfl | hs
    · exact ih he
    · rw [List.mem_singleton.mp hs]
      rfl
  | union hlen _ ih =>
    refine Schema.same_unite_self fun s hs => ?_
    obtain ⟨e, hp⟩ := exists_mem_zip_right hlen hs
    exact ih _ hp (he.of_mem (List.of_mem_zip hp).1)
  | literal m values =>
    refine Literal.sameAll_self fun l hl => Literal.same_self fun x hx => ?_
    exact he x (List.mem_map.mpr ⟨l, hl, by rw [hx]⟩)
  | ofAlias hl _ ih => exact ih (henv.nanFree _ _ (Environment.lookup_found hl))
  | @ofRecord m name key r ss hl hlen _ ih =>
    have hd := Environment.lookup_found hl
    have hfields : NaNFree (TypeExpr.literalMembersAll (r.fields.map Prod.snd)) :=
      henv.nanFree _ _ hd
    refine Schema.same_record_self _ ?_ fun p hp => ?_
    · exact nodup_properties (by rwa [List.length_map] at hlen) (henv.tabular _ _ hd)
    · obtain ⟨e, hpair⟩ := exists_mem_zip_right hlen (List.of_mem_zip hp).2
      exact ih _ hpair (hfields.of_mem (List.of_mem_zip hpair).1)

end

namespace Direct

variable {named : String → Except Fault Schema} {m : ModulePath}

theorem expandAll_append (xs ys : List TypeExpr) :
    expandAll named m (xs ++ ys) = (do
      let ss ← expandAll named m xs
      let ts ← expandAll named m ys
      .ok (ss ++ ts)) := by
  induction xs with
  | nil => cases h : expandAll named m ys <;> simp [expandAll, h, bind, Except.bind]
  | cons x xs ih =>
    rw [List.cons_append, expandAll, ih, expandAll]
    cases expand named m x with
    | error fault => rfl
    | ok s =>
      cases expandAll named m xs with
      | error fault => rfl
      | ok ss => cases expandAll named m ys <;> rfl

theorem exists_of_expandAll {es : List TypeExpr} {ss : List Schema}
    (h : expandAll named m es = .ok ss) {e : TypeExpr} (he : e ∈ es) :
    ∃ s ∈ ss, expand named m e = .ok s := by
  induction es generalizing ss with
  | nil => exact absurd he List.not_mem_nil
  | cons first es ih =>
    obtain ⟨s, hs, htail⟩ := bind_eq_ok.mp h
    obtain ⟨rest, hrest, hss⟩ := bind_eq_ok.mp htail
    cases hss
    rcases List.mem_cons.mp he with rfl | he
    · exact ⟨s, List.mem_cons_self, hs⟩
    · obtain ⟨t, ht, hexpand⟩ := ih hrest he
      exact ⟨t, List.mem_cons_of_mem _ ht, hexpand⟩

/-- Members of an inner union are resolved in the same order as members of the outer one. -/
theorem expand_union_nested (xs ys zs : List TypeExpr) :
    expand named m (.union (xs ++ [.union ys] ++ zs)) =
      expand named m (.union (xs ++ ys ++ zs)) := by
  simp only [expand, expandAll_append, expandAll]
  cases expandAll named m xs with
  | error fault => rfl
  | ok ss =>
    cases expandAll named m ys with
    | error fault => rfl
    | ok ts =>
      cases expandAll named m zs with
      | error fault => rfl
      | ok us => exact congrArg Except.ok (Schema.unite_append_unite ss ts us)

theorem expand_union_replace (xs zs : List TypeExpr) {e e' : TypeExpr}
    (h : SucceedAlike (expand named m e) (expand named m e')) :
    SucceedAlike (expand named m (.union (xs ++ [e] ++ zs)))
      (expand named m (.union (xs ++ [e'] ++ zs))) := by
  have hsame (es : List TypeExpr) : List.Forall₂
      (fun e e' => SucceedAlike (expand named m e) (expand named m e')) es es :=
    List.forall₂_same.mpr fun _ _ => .refl _
  have hall := List.rel_append (List.rel_append (hsame xs) (.cons h .nil)) (hsame zs)
  exact (expandAll_succeedAlike hall).bind fun _ => .refl _

/-- A member adds nothing if an earlier one has the same schema. -/
theorem expand_union_concat {xs : List TypeExpr} {e e' : TypeExpr} (he : e ∈ xs)
    (hsame : ∀ s, expand named m e = .ok s → expand named m e' = .ok s ∧ Schema.same s s = true) :
    expand named m (.union (xs ++ [e'])) = expand named m (.union xs) := by
  simp only [expand, expandAll_append, expandAll]
  cases hxs : expandAll named m xs with
  | error fault => rfl
  | ok ss =>
    obtain ⟨s, hs, hexpand⟩ := exists_of_expandAll hxs he
    obtain ⟨hexpand', hself⟩ := hsame s hexpand
    rw [hexpand']
    exact congrArg Except.ok (Schema.unite_concat_of_mem hs hself)

end Direct

/-- Unions are flat: a union inside another one can be replaced by its members, with the same schema
or the same fault; a member that is there already adds nothing; and both hold as well if the inner
union is given by the name of an alias, where only the faults of the first may differ. NaN is in the
way of nothing but repeated members. -/
theorem Environment.resolve_union_flat (env : Environment) (hops : Nat) (m : ModulePath)
    (xs ys zs : List TypeExpr) :
    let answer (members : List TypeExpr) := ((env.resolve hops m (.union members)).run .fresh).1
    answer (xs ++ [.union ys] ++ zs) = answer (xs ++ ys ++ zs) ∧
      (env.Comparable → ∀ e ∈ xs, NaNFree e.literalMembers → answer (xs ++ [e]) = answer xs) ∧
      ∀ name, env.catalog.find? ⟨m, name⟩ = some (.alias (.union ys)) →
        (∀ s, answer (xs ++ [.reference name] ++ zs) = .ok s ∨ answer (xs ++ ys ++ zs) = .ok s →
          answer (xs ++ [.reference name] ++ zs) = answer (xs ++ ys ++ zs)) ∧
        (env.Comparable → .union ys ∈ xs → answer (xs ++ [.reference name]) = answer xs) ∧
        (env.Comparable → .reference name ∈ xs → answer (xs ++ [.union ys]) = answer xs) := by
  intro answer
  have hanswer (members : List TypeExpr) :
      answer members = Direct.expand (Direct.reference env hops [] m) m (.union members) :=
    run_resolve_fresh m _
  have hself (henv : env.Comparable) {e : TypeExpr} (he : NaNFree e.literalMembers) {s : Schema}
      (hs : Direct.expand (Direct.reference env hops [] m) m e = .ok s) : Schema.same s s = true :=
    (Direct.resolve_eq_ok_iff.mp hs).same_self henv he
  simp only [hanswer]
  refine ⟨Direct.expand_union_nested xs ys zs, fun henv e he hnan => ?_, fun name halias => ?_⟩
  · exact Direct.expand_union_concat he fun s hs => ⟨hs, hself henv hnan hs⟩
  · have hname : SucceedAlike
        (Direct.expand (Direct.reference env hops [] m) m (.reference name))
        (Direct.expand (Direct.reference env hops [] m) m (.union ys)) :=
      Direct.reference_alias halias
    refine ⟨fun s hs => ?_, fun henv he => ?_, fun henv he => ?_⟩
    · rw [← Direct.expand_union_nested xs ys zs] at hs ⊢
      exact (Direct.expand_union_replace xs zs hname).eq_of_ok hs
    · have hnan : NaNFree (TypeExpr.union ys).literalMembers := henv.nanFree _ _ halias
      exact Direct.expand_union_concat he fun s hs => ⟨(hname s).mpr hs, hself henv hnan hs⟩
    · have hnan : NaNFree (TypeExpr.reference name).literalMembers :=
        fun x hx => absurd hx List.not_mem_nil
      exact Direct.expand_union_concat he fun s hs => ⟨(hname s).mp hs, hself henv hnan hs⟩

theorem resolve_union_flat_shapes :
    Environment.shapes.Comparable ∧
      ((Environment.shapes.resolve 1 ⟨"types"⟩ (.union [.primitive .str, .reference "Point",
          .reference "Shape", .none, .reference "Point"])).run .fresh).1 =
        .ok (.anyOf [.string, .record [("x", .integer), ("y", .anyOf [.number, .null])] ["x", "y"],
          .enum [.float ⟨0x3FE0000000000000⟩], .null]) := by
  have hcomparable := Environment.shapes_meaningful.comparable
  refine ⟨hcomparable, ?_⟩
  have hrepeated := (Environment.resolve_union_flat .shapes 1 ⟨"types"⟩
    [.primitive .str, .reference "Point", .reference "Shape", .none] [] []).2.1 hcomparable
    (.reference "Point") (by simp) (fun x hx => absurd hx List.not_mem_nil)
  have hflat := (Environment.resolve_union_flat .shapes 1 ⟨"types"⟩
    [.primitive .str, .reference "Point"]
    [.reference "Point", .literal [.value (.float ⟨0x3FE0000000000000⟩)]] [.none]).2.2 "Shape" rfl
  exact hrepeated.trans (hflat.1 _ (.inr rfl))

end CallSchema
