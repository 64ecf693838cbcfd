import CallSchema.Proofs.Tables
import CallSchema.SyntaxTree.Decode
import CallSchema.SyntaxTree.Encode

/-! # The fields of a node

A node is written with the fields that have a value. Its reader finds each of them under its name
and what is left out is filled in.
-/

namespace CallSchema

/-- The members of a node whose declared fields have the given values; a field without a value is
left out. -/
def givenMembers (fields : List (String × Option Json)) : Table String Json :=
  fields.filterMap fun field => field.2.map fun v => (field.1, v)

/-- The value of an array that is left out when it is empty. -/
def nonemptyArray : List Json → Option Json
  | [] => none
  | vs => some (.arr vs)

theorem optionalMember_eq (key : String) (o : Option Json) :
    optionalMember key o = givenMembers [(key, o)] := by
  cases o <;> rfl

theorem optionalList_eq (key : String) (vs : List Json) :
    optionalList key vs = givenMembers [(key, nonemptyArray vs)] := by
  cases vs <;> rfl

theorem givenMembers_append (fs gs : List (String × Option Json)) :
    givenMembers (fs ++ gs) = givenMembers fs ++ givenMembers gs :=
  List.filterMap_append

theorem keys_givenMembers (fields : List (String × Option Json)) :
    List.Sublist (givenMembers fields).keys (fields.map Prod.fst) := by
  induction fields with
  | nil => exact List.Sublist.slnil
  | cons field fields ih =>
    obtain ⟨name, o⟩ := field
    cases o with
    | none => exact ih.cons name
    | some v => exact ih.cons_cons name

theorem find?_givenMembers {fields : List (String × Option Json)} {name : String}
    (hn : (fields.map Prod.fst).Nodup) :
    (givenMembers fields).find? name = (Table.find? fields name).join := by
  induction fields with
  | nil => rfl
  | cons field fields ih =>
    obtain ⟨key, o⟩ := field
    obtain ⟨hkey, hrest⟩ := List.nodup_cons.mp hn
    by_cases hname : key = name
    · subst hname
      have habsent : (givenMembers fields).find? key = none :=
        Table.find?_eq_none_iff.mpr fun h => hkey ((keys_givenMembers fields).subset h)
      cases o with
      | none => simpa [givenMembers, Table.find?] using habsent
      | some v => simp [givenMembers, Table.find?]
    · have hskip : (givenMembers ((key, o) :: fields)).find? name =
          (givenMembers fields).find? name := by
        cases o with
        | none => rfl
        | some v => simp [givenMembers, Table.find?, hname]
      rw [hskip, ih hrest, Table.find?, if_neg hname]

namespace Decode

variable {α κ : Type} {f : Json → Option α} {fs : Table String Json} {name : String}

/-- A node whose keys are declared ones in their order has its members as fields. -/
theorem fields?_obj {names : List String} {ms : List (String × Json)} (hn : names.Nodup)
    (hkeys : List.Sublist (Table.keys ms) names) : fields? names (.obj ms) = some ms := by
  have hknown : ms.filter (fun m => decide (m.1 ∈ names)) = ms := by
    refine List.filter_eq_self.mpr fun m hm => decide_eq_true ?_
    exact hkeys.subset (List.mem_map_of_mem hm)
  rw [fields?, hknown]
  exact if_pos (hn.sublist hkeys)

theorem fields?_givenMembers {fields : List (String × Option Json)} {names : List String}
    (hn : names.Nodup) (hnames : fields.map Prod.fst = names) :
    fields? names (.obj (givenMembers fields)) = some (givenMembers fields) :=
  fields?_obj hn (hnames ▸ keys_givenMembers fields)

theorem tagged?_obj {kinds : List κ} {label : κ → String} (nested : Bool) (l : String)
    {ms : List (String × Json)} (h : "kind" ∉ Table.keys ms) :
    tagged? kinds label nested (.obj (kindMember l :: ms)) =
      some (kinds.find? fun k => label k == l, .obj ms) := by
  have hne : ∀ m ∈ ms, m.1 ≠ "kind" := by
    intro m hm heq
    exact h (heq ▸ List.mem_map_of_mem hm)
  have hkind : ms.filter (fun m => m.1 == "kind") = [] :=
    List.filter_eq_nil_iff.mpr fun m hm => by simpa using hne m hm
  have hrest : ms.filter (fun m => m.1 != "kind") = ms :=
    List.filter_eq_self.mpr fun m hm => by simpa using hne m hm
  simp [tagged?, kindMember, hkind, hrest, kind?]

theorem tagged?_givenMembers {kinds : List κ} {label : κ → String} (nested : Bool) (l : String)
    {fields : List (String × Option Json)} (h : "kind" ∉ fields.map Prod.fst) :
    tagged? kinds label nested (.obj (kindMember l :: givenMembers fields)) =
      some (kinds.find? fun k => label k == l, .obj (givenMembers fields)) :=
  tagged?_obj nested l fun hk => h ((keys_givenMembers fields).subset hk)

theorem list?_map {write : α → Json} {as : List α} (h : ∀ a ∈ as, f (write a) = some a) :
    list? f (.arr (as.map write)) = some as := by
  rw [list?]
  induction as with
  | nil => rfl
  | cons a as ih =>
    obtain ⟨ha, has⟩ := List.forall_mem_cons.mp h
    simp [ha, ih has]

theorem required?_of_find? {v : Json} {a : α} (hfind : fs.find? name = some v)
    (hread : f v = some a) : required? f fs name = some a := by
  rw [required?, hfind, Option.bind_some, hread]

theorem defaulted?_of_find? {v : Json} {a default : α} (hfind : fs.find? name = some v)
    (hread : f v = some a) : defaulted? f default fs name = some a := by
  simp only [defaulted?, hfind, hread]

theorem nullable?_of_ne_null {v : Json} (h : v ≠ .null) : nullable? f v = (f v).map some := by
  unfold nullable?
  split
  · contradiction
  · rfl

theorem optional?_of_find? {write : α → Json} {o : Option α}
    (hfind : fs.find? name = o.map write) (hnull : ∀ a, write a ≠ .null)
    (hread : ∀ a ∈ o, f (write a) = some a) : optional? f fs name = some o := by
  cases o with
  | none => simp [optional?, defaulted?, hfind]
  | some a => simp [optional?, defaulted?, hfind, nullable?_of_ne_null (hnull a), hread a rfl]

/-- A list that is left out when it is empty, or only perhaps. -/
theorem defaultedList?_of_find? {write : α → Json} {as : List α}
    (hfind : fs.find? name = nonemptyArray (as.map write))
    (hread : ∀ a ∈ as, f (write a) = some a) : defaulted? (list? f) [] fs name = some as := by
  cases as with
  | nil => simp [defaulted?, hfind, nonemptyArray]
  | cons a as =>
    have hlist := list?_map hread
    rw [List.map_cons] at hfind hlist
    simp only [defaulted?, hfind, nonemptyArray, hlist]

end Decode

end CallSchema
