import Mathlib.Data.List.Induction
import Mathlib.Data.List.Nodup
import CallSchema.Table

/-! # The theory of tables

What a table holds under a key, and the table that a list of entries makes.
-/

namespace CallSchema

theorem mem_addNew {α : Type} [DecidableEq α] {xs : List α} {x y : α} :
    y ∈ addNew xs x ↔ y ∈ xs ∨ y = x := by
  rw [addNew]
  split
  · rename_i hx
    exact ⟨.inl, fun h => h.elim id fun h => h ▸ hx⟩
  · rw [List.mem_append, List.mem_singleton]

namespace Table

variable {κ ν : Type} [DecidableEq κ] {t : Table κ ν} {key : κ} {value : ν}

theorem mem_of_find? (h : t.find? key = some value) : (key, value) ∈ t := by
  induction t with
  | nil => simp [find?] at h
  | cons p t ih =>
    obtain ⟨k, v⟩ := p
    by_cases hk : k = key
    · simp_all [find?]
    · rw [find?, if_neg hk] at h
      exact List.mem_cons_of_mem _ (ih h)

theorem mem_keys_of_find? (h : t.find? key = some value) : key ∈ t.keys :=
  List.mem_map_of_mem (mem_of_find? h)

theorem exists_find? (h : key ∈ t.keys) : ∃ value, t.find? key = some value := by
  induction t with
  | nil => simp [keys] at h
  | cons p t ih =>
    obtain ⟨k, v⟩ := p
    by_cases hk : k = key
    · exact ⟨v, by simp [find?, hk]⟩
    · have hkey : key ∈ keys t := by simpa [keys, Ne.symm hk] using h
      rw [find?, if_neg hk]
      exact ih hkey

theorem find?_of_mem (hn : t.keys.Nodup) (h : (key, value) ∈ t) : t.find? key = some value := by
  obtain ⟨w, hw⟩ := exists_find? (List.mem_map_of_mem h)
  have hpair : (key, w) = (key, value) := List.inj_on_of_nodup_map hn (mem_of_find? hw) h rfl
  rw [hw, (Prod.mk.inj hpair).2]

theorem find?_eq_none_iff : t.find? key = none ↔ key ∉ t.keys := by
  constructor
  · intro h hk
    obtain ⟨v, hv⟩ := exists_find? hk
    simp [h] at hv
  · intro h
    cases hf : t.find? key with
    | none => rfl
    | some v => exact absurd (mem_keys_of_find? hf) h

theorem mem_enter {p : κ × ν} (h : p ∈ t.enter key value) : p ∈ t ∨ p = (key, value) := by
  induction t with
  | nil => exact .inr (List.mem_singleton.mp h)
  | cons q t ih =>
    obtain ⟨k, v⟩ := q
    rw [enter] at h
    split at h
    · rename_i hk
      rcases List.mem_cons.mp h with rfl | h
      · exact .inr (by rw [hk])
      · exact .inl (List.mem_cons_of_mem _ h)
    · rcases List.mem_cons.mp h with rfl | h
      · exact .inl List.mem_cons_self
      · exact (ih h).imp_left (List.mem_cons_of_mem _)

theorem mem_keys_enter {k : κ} : k ∈ (t.enter key value).keys ↔ k ∈ t.keys ∨ k = key := by
  rw [keys_enter, mem_addNew]

theorem enter_of_not_mem (h : key ∉ t.keys) : t.enter key value = t ++ [(key, value)] := by
  induction t with
  | nil => rfl
  | cons p t ih =>
    obtain ⟨k, v⟩ := p
    have hk : k ≠ key := fun hk => h (hk ▸ List.mem_cons_self)
    rw [enter, if_neg hk, ih fun ht => h (List.mem_cons_of_mem _ ht), List.cons_append]

theorem nodup_enter (h : t.keys.Nodup) : (t.enter key value).keys.Nodup := by
  rw [keys_enter, addNew]
  split
  · exact h
  · rename_i hk
    exact h.append (List.nodup_singleton key) (by simpa using hk)

theorem enterAll_append (t : Table κ ν) (ps qs : List (κ × ν)) :
    t.enterAll (ps ++ qs) = (t.enterAll ps).enterAll qs :=
  List.foldl_append

/-- Entering leaves what is held under other keys. -/
theorem find?_enterAll_of_not_mem {pairs : List (κ × ν)} (h : key ∉ pairs.map Prod.fst) :
    (t.enterAll pairs).find? key = t.find? key := by
  induction pairs generalizing t with
  | nil => rfl
  | cons p pairs ih =>
    obtain ⟨hne, hrest⟩ := not_or.mp (mt List.mem_cons.mpr h)
    exact (ih hrest).trans (find?_enter_of_ne t p.2 (Ne.symm hne))

/-- What is held under a key depends on nothing else that was held before. -/
theorem find?_enterAll_congr {t' : Table κ ν} (h : t.find? key = t'.find? key)
    (pairs : List (κ × ν)) : (t.enterAll pairs).find? key = (t'.enterAll pairs).find? key := by
  induction pairs generalizing t t' with
  | nil => exact h
  | cons p pairs ih =>
    refine ih ?_
    by_cases hk : p.1 = key
    · subst hk
      rw [find?_enter_self, find?_enter_self]
    · rw [find?_enter_of_ne _ _ hk, find?_enter_of_ne _ _ hk, h]

theorem ofList_concat (pairs : List (κ × ν)) (key : κ) (value : ν) :
    ofList (pairs ++ [(key, value)]) = (ofList pairs).enter key value :=
  enterAll_append [] pairs [(key, value)]

theorem mem_of_mem_ofList {pairs : List (κ × ν)} {p : κ × ν} (h : p ∈ ofList pairs) :
    p ∈ pairs := by
  induction pairs using List.reverseRecOn with
  | nil => exact h
  | append_singleton pairs q ih =>
    rw [ofList_concat] at h
    rcases mem_enter h with h | rfl
    · exact List.mem_append_left _ (ih h)
    · exact List.mem_append_right _ List.mem_cons_self

/-- Keys stand where they were first entered. -/
theorem keys_ofList (pairs : List (κ × ν)) :
    (ofList pairs).keys = (pairs.map Prod.fst).eraseDups := by
  induction pairs using List.reverseRecOn with
  | nil => rfl
  | append_singleton pairs p ih =>
    obtain ⟨key, value⟩ := p
    rw [ofList_concat, keys_enter, ih, List.map_append, List.eraseDups_append, addNew]
    by_cases hk : key ∈ pairs.map Prod.fst
    · simp [List.mem_eraseDups.mpr hk, List.removeAll, hk]
    · simp [mt List.mem_eraseDups.mp hk, List.removeAll, hk, List.eraseDups_cons]

/-- A key has the value that was entered last. -/
theorem find?_ofList (pairs : List (κ × ν)) (key : κ) :
    (ofList pairs).find? key = (pairs.reverse.find? fun p => decide (p.1 = key)).map Prod.snd := by
  induction pairs using List.reverseRecOn with
  | nil => rfl
  | append_singleton pairs p ih =>
    obtain ⟨k, v⟩ := p
    rw [ofList_concat]
    by_cases hk : k = key
    · subst hk
      simp [find?_enter_self]
    · simp [find?_enter_of_ne _ v hk, ih, hk]

end Table

end CallSchema
