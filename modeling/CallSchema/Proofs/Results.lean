import Mathlib.Data.List.Forall2
import Mathlib.Data.List.Nodup

/-! # Results and lists

What a computation that may fail says of its parts, and what lists that are traversed, filtered or
paired say of their members.
-/

namespace CallSchema

theorem bind_eq_ok {ε α β : Type} {x : Except ε α} {f : α → Except ε β} {b : β} :
    (x >>= f) = .ok b ↔ ∃ a, x = .ok a ∧ f a = .ok b := by
  cases x with
  | error fault => simp [bind, Except.bind]
  | ok a => simp [bind, Except.bind]

theorem bind_eq_error {ε α β : Type} {x : Except ε α} {f : α → Except ε β} {fault : ε} :
    (x >>= f) = .error fault ↔ x = .error fault ∨ ∃ a, x = .ok a ∧ f a = .error fault := by
  cases x with
  | error other => simp [bind, Except.bind]
  | ok a => simp [bind, Except.bind]

theorem map_eq_ok {ε α β : Type} {x : Except ε α} {f : α → β} {b : β} :
    x.map f = .ok b ↔ ∃ a, x = .ok a ∧ f a = b := by
  cases x <;> simp [Except.map]

theorem map_eq_error {ε α β : Type} {x : Except ε α} {f : α → β} {fault : ε} :
    x.map f = .error fault ↔ x = .error fault := by
  cases x <;> simp [Except.map]

theorem mapM_eq_ok_iff {ε α β : Type} {f : α → Except ε β} {as : List α} {bs : List β} :
    as.mapM f = .ok bs ↔ List.Forall₂ (fun a b => f a = .ok b) as bs := by
  induction as generalizing bs with
  | nil => simp [pure, Except.pure, eq_comm]
  | cons a as ih =>
    rw [List.mapM_cons, bind_eq_ok, List.forall₂_cons_left_iff]
    simp only [bind_eq_ok, ih, pure, Except.pure, Except.ok.injEq]
    constructor
    · rintro ⟨b, hb, rest, hrest, rfl⟩
      exact ⟨b, rest, hb, hrest, rfl⟩
    · rintro ⟨b, rest, hb, hrest, rfl⟩
      exact ⟨b, hb, rest, hrest, rfl⟩

theorem exists_of_mapM_eq_error {ε α β : Type} {f : α → Except ε β} {as : List α} {fault : ε}
    (h : as.mapM f = .error fault) : ∃ a ∈ as, f a = .error fault := by
  induction as with
  | nil => cases h
  | cons a as ih =>
    rw [List.mapM_cons] at h
    rcases bind_eq_error.mp h with ha | ⟨b, -, hrest⟩
    · exact ⟨a, List.mem_cons_self, ha⟩
    · rcases bind_eq_error.mp hrest with hrest | ⟨bs, -, hpure⟩
      · obtain ⟨a', ha', hfault⟩ := ih hrest
        exact ⟨a', List.mem_cons_of_mem _ ha', hfault⟩
      · cases hpure

theorem mapM_id_eq_ok_iff {ε α : Type} {as : List (Except ε α)} {bs : List α} :
    as.mapM id = .ok bs ↔ as = bs.map .ok := by
  rw [mapM_eq_ok_iff, ← List.forall₂_eq_eq_eq, List.forall₂_map_right_iff]
  rfl

theorem exists_eq_map_ok {ε α : Type} {as : List (Except ε α)} (h : ∀ a ∈ as, ∃ b, a = .ok b) :
    ∃ bs : List α, as = bs.map .ok := by
  cases hall : as.mapM id with
  | ok bs => exact ⟨bs, mapM_id_eq_ok_iff.mp hall⟩
  | error fault =>
    obtain ⟨a, ha, hfault⟩ := exists_of_mapM_eq_error hall
    obtain ⟨b, hb⟩ := h a ha
    cases hb.symm.trans hfault

/-- A traversal that meets a fault ends with it. -/
theorem mapM_eq_error {ε α β : Type} {f : α → Except ε β} {before after : List α} {a : α}
    {fault : ε} (hbefore : ∀ b ∈ before, ∃ c, f b = .ok c) (ha : f a = .error fault) :
    (before ++ a :: after).mapM f = .error fault := by
  induction before with
  | nil =>
    rw [List.nil_append, List.mapM_cons, ha]
    rfl
  | cons b before ih =>
    obtain ⟨c, hc⟩ := hbefore b List.mem_cons_self
    rw [List.cons_append, List.mapM_cons, hc, ih fun b hb => hbefore b (List.mem_cons_of_mem _ hb)]
    rfl

theorem mapM_congr {α β : Type} {f g : α → Option β} {as : List α} (h : ∀ a ∈ as, f a = g a) :
    as.mapM f = as.mapM g := by
  induction as with
  | nil => rfl
  | cons a as ih =>
    obtain ⟨ha, has⟩ := List.forall_mem_cons.mp h
    rw [List.mapM_cons, List.mapM_cons, ha, ih has]

theorem exists_mem_zip {α β : Type} {as : List α} {bs : List β} (h : as.length = bs.length) {a : α}
    (ha : a ∈ as) : ∃ b, (a, b) ∈ as.zip bs := by
  obtain ⟨i, hi, rfl⟩ := List.getElem_of_mem ha
  have hz : i < (as.zip bs).length := by
    rw [List.length_zip, ← h]
    omega
  exact ⟨_, List.getElem_zip (h := hz) ▸ List.getElem_mem hz⟩

theorem exists_mem_zip_right {α β : Type} {as : List α} {bs : List β} (h : as.length = bs.length)
    {b : β} (hb : b ∈ bs) : ∃ a, (a, b) ∈ as.zip bs := by
  obtain ⟨i, hi, rfl⟩ := List.getElem_of_mem hb
  have hz : i < (as.zip bs).length := by
    rw [List.length_zip, h]
    omega
  exact ⟨_, List.getElem_zip (h := hz) ▸ List.getElem_mem hz⟩

section

variable {α β : Type} {R : α → β → Prop} {as : List α} {bs : List β}

theorem exists_of_mem_left (h : List.Forall₂ R as bs) {a : α} (ha : a ∈ as) : ∃ b ∈ bs, R a b := by
  obtain ⟨b, hab⟩ := exists_mem_zip h.length_eq ha
  exact ⟨b, (List.of_mem_zip hab).2, List.forall₂_zip h hab⟩

theorem exists_of_mem_right (h : List.Forall₂ R as bs) {b : β} (hb : b ∈ bs) :
    ∃ a ∈ as, R a b := by
  obtain ⟨a, hab⟩ := exists_mem_zip_right h.length_eq hb
  exact ⟨a, (List.of_mem_zip hab).1, List.forall₂_zip h hab⟩

section

variable {P : α → Prop} {Q : β → Prop} (h : List.Forall₂ R as bs)
  (hiff : ∀ a b, R a b → (P a ↔ Q b))

include h hiff

theorem forall_mem_iff : (∀ a ∈ as, P a) ↔ ∀ b ∈ bs, Q b := by
  constructor
  · intro hP b hb
    obtain ⟨a, ha, hab⟩ := exists_of_mem_right h hb
    exact (hiff a b hab).mp (hP a ha)
  · intro hQ a ha
    obtain ⟨b, hb, hab⟩ := exists_of_mem_left h ha
    exact (hiff a b hab).mpr (hQ b hb)

theorem exists_mem_iff : (∃ a ∈ as, P a) ↔ ∃ b ∈ bs, Q b := by
  constructor
  · rintro ⟨a, ha, hP⟩
    obtain ⟨b, hb, hab⟩ := exists_of_mem_left h ha
    exact ⟨b, hb, (hiff a b hab).mp hP⟩
  · rintro ⟨b, hb, hQ⟩
    obtain ⟨a, ha, hab⟩ := exists_of_mem_right h hb
    exact ⟨a, ha, (hiff a b hab).mpr hQ⟩

end

end

/-- Lists with the same images are the same where the images of their members tell these apart. -/
theorem eq_of_map_eq_map {α β : Type} {f : α → β} {as bs : List α}
    (hf : ∀ a ∈ as, ∀ b ∈ bs, f a = f b → a = b) (h : as.map f = bs.map f) : as = bs := by
  induction as generalizing bs with
  | nil => exact (List.map_eq_nil_iff.mp h.symm).symm
  | cons a as ih =>
    obtain ⟨b, bs, rfl, hab, hrest⟩ := List.map_eq_cons_iff.mp h.symm
    obtain rfl := hf a List.mem_cons_self b List.mem_cons_self hab.symm
    rw [ih (fun c hc d hd => hf c (List.mem_cons_of_mem a hc) d (List.mem_cons_of_mem a hd))
      hrest.symm]

theorem filter_filterMap_eq {α β : Type} {f : α → Option β} {p : β → Bool} {q : α → Bool}
    (h : ∀ a b, f a = some b → p b = q a) (as : List α) :
    (as.filterMap f).filter p = (as.filter q).filterMap f := by
  induction as with
  | nil => rfl
  | cons a as ih =>
    cases hf : f a with
    | none => cases hq : q a <;> simp [hf, hq, ih]
    | some b =>
      have hpq := h a b hf
      cases hq : q a <;> simp [hf, hq, hpq, ih]

/-- A sublist of a list without repeated keys consists of the elements that have its keys. -/
theorem sublist_eq_filter {α κ : Type} [DecidableEq κ] {key : α → κ} {as bs : List α}
    (h : as.Sublist bs) (hn : (bs.map key).Nodup) :
    as = bs.filter fun b => decide (key b ∈ as.map key) := by
  induction h with
  | slnil => rfl
  | @cons as bs b hsub ih =>
    obtain ⟨hb, hbs⟩ := List.nodup_cons.mp hn
    have hnot : key b ∉ as.map key := fun hmem => hb ((hsub.map key).subset hmem)
    rw [List.filter_cons_of_neg (by simpa using hnot)]
    exact ih hbs
  | @cons_cons as bs a hsub ih =>
    obtain ⟨ha, hbs⟩ := List.nodup_cons.mp hn
    rw [List.filter_cons_of_pos (by simp)]
    nth_rewrite 1 [ih hbs]
    congr 1
    refine List.filter_congr fun b hb => ?_
    have hne : key b ≠ key a := fun he => ha (he ▸ List.mem_map_of_mem hb)
    simp [hne]

/-- Where no key is shared, those with another key than one of them are all the others. -/
theorem perm_cons_filter {α β : Type} [DecidableEq β] {key : α → β} {as : List α} {a : α}
    (hnodup : (as.map key).Nodup) (ha : a ∈ as) :
    as.Perm (a :: as.filter fun b => key b ≠ key a) := by
  obtain ⟨before, after, rfl⟩ := List.mem_iff_append.mp ha
  rw [List.map_append, List.map_cons, List.nodup_middle, List.nodup_cons,
    ← List.map_append] at hnodup
  have hothers : ∀ b ∈ before ++ after, key b ≠ key a := fun b hb he =>
    hnodup.1 (he ▸ List.mem_map_of_mem hb)
  have hfilter : (before ++ a :: after).filter (fun b => key b ≠ key a) = before ++ after := by
    have hkept := List.filter_eq_self.mpr fun b hb => decide_eq_true (hothers b hb)
    simpa [List.filter_append] using hkept
  rw [hfilter]
  exact List.perm_middle

theorem eq_take_append_cons {α : Type} {as : List α} {i : Nat} {a : α} (h : as[i]? = some a) :
    as = as.take i ++ a :: as.drop (i + 1) := by
  obtain ⟨hi, ha⟩ := List.getElem?_eq_some_iff.mp h
  rw [← ha, ← List.drop_eq_getElem_cons hi, List.take_append_drop]

theorem mem_append_iff_of_nodup {α : Type} {front own back : List α}
    (hn : (front ++ own ++ back).Nodup) {a : α} (ha : a ∈ front ++ own ++ back) :
    a ∈ front ++ back ↔ a ∉ own := by
  have hperm : (front ++ own ++ back).Perm (own ++ (front ++ back)) := by
    rw [← List.append_assoc]
    exact List.perm_append_comm.append_right back
  constructor
  · exact fun hothers hown => List.disjoint_of_nodup_append (hperm.nodup_iff.mp hn) hown hothers
  · exact fun hown => (List.mem_append.mp (hperm.mem_iff.mp ha)).resolve_left hown

end CallSchema
