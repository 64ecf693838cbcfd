import Mathlib.Data.List.Forall2
import CallSchema.Proofs.Constants
import CallSchema.Proofs.Derivation

/-! # What annotations stand for

Lowering as a relation: an annotation with arguments stands for the construct applied to what its
arguments stand for. Whatever is lowered has a member in every union and literal type.
-/

namespace CallSchema

namespace Expression

/-- Induction on expressions, the elements of a tuple being available as such. -/
@[elab_as_elim, induction_eliminator]
theorem induct {motive : Expression → Prop} (name : ∀ id, motive (.name id))
    (access : ∀ value attr, motive value → motive (.attribute value attr))
    (subscript : ∀ value slice, motive value → motive slice → motive (.subscript value slice))
    (tuple : ∀ elements, (∀ e ∈ elements, motive e) → motive (.tuple elements))
    (constant : ∀ value, motive (.constant value)) (other : motive .other) : ∀ e, motive e := by
  intro e
  refine @Expression.rec motive (fun es => ∀ e ∈ es, motive e) name access subscript tuple
    constant other ?_ ?_ e
  · intro e he
    exact absurd he List.not_mem_nil
  · intro head tail hhead htail e he
    rcases List.mem_cons.mp he with rfl | he
    · exact hhead
    · exact htail e he

/-- The arguments that stand between brackets; several form a tuple. -/
def arguments : Expression → List Expression
  | .tuple elements => elements
  | e => [e]

/-- Induction on annotations: what stands between brackets counts by its arguments, whether or not
they form a tuple. -/
@[elab_as_elim]
theorem inductArguments {motive : Expression → Prop} (name : ∀ id, motive (.name id))
    (access : ∀ value attr, motive (.attribute value attr))
    (subscript : ∀ base slice, (∀ arg ∈ slice.arguments, motive arg) →
      motive (.subscript base slice))
    (tuple : ∀ elements, motive (.tuple elements)) (constant : ∀ value, motive (.constant value))
    (other : motive .other) (e : Expression) : motive e := by
  suffices hboth : motive e ∧ ∀ arg ∈ e.arguments, motive arg from hboth.1
  have hsingle {e : Expression} (he : e.arguments = [e]) (hself : motive e) :
      motive e ∧ ∀ arg ∈ e.arguments, motive arg := by
    refine ⟨hself, fun arg harg => ?_⟩
    rw [he, List.mem_singleton] at harg
    exact harg ▸ hself
  induction e with
  | name id => exact hsingle rfl (name id)
  | access value attr _ => exact hsingle rfl (access value attr)
  | subscript base slice _ ih => exact hsingle rfl (subscript base slice ih.2)
  | tuple elements ih => exact ⟨tuple elements, fun arg harg => (ih arg harg).1⟩
  | constant value => exact hsingle rfl (constant value)
  | other => exact hsingle rfl other

theorem constants_arguments {slice arg : Expression} (h : arg ∈ slice.arguments) :
    arg.constants ⊆ slice.constants := by
  intro c hc
  cases slice with
  | tuple elements => exact mem_constantsAll.mpr ⟨arg, h, hc⟩
  | _ => exact List.mem_singleton.mp h ▸ hc

end Expression

/-- Type expressions without parts. -/
def TypeExpr.isAtom : TypeExpr → Bool
  | .list _ | .dict .. | .optional _ | .union _ | .literal _ => false
  | .primitive _ | .none | .any | .reference _ | .external _ | .unsupported _ => true

/-- What a construct can make of its arguments. -/
theorem Construct.apply_eq_ok {c : Construct} {whole : String} {t : TypeExpr}
    {args : List (Expression × Except Fault TypeExpr)} (h : c.apply whole args = .ok t) :
    (c = .list ∧ ∃ e item, args = [(e, .ok item)] ∧ t = .list item) ∨
      (c = .optional ∧ ∃ e inner, args = [(e, .ok inner)] ∧ t = .optional inner) ∨
      (c = .dict ∧ ∃ k key v value, args = [(k, .ok key), (v, .ok value)] ∧ t = .dict key value) ∨
      (c = .union ∧ args ≠ [] ∧ ∃ ts, args.mapM Prod.snd = .ok ts ∧ t = .union ts) ∨
      (c = .literal ∧ args ≠ [] ∧ t = .literal (args.map fun a => .ofExpression a.1)) := by
  unfold Construct.apply at h
  split at h
  · obtain ⟨item, rfl, rfl⟩ := map_eq_ok.mp h
    exact .inl ⟨rfl, _, item, rfl, rfl⟩
  · cases h
  · obtain ⟨inner, rfl, rfl⟩ := map_eq_ok.mp h
    exact .inr (.inl ⟨rfl, _, inner, rfl, rfl⟩)
  · cases h
  · obtain ⟨key, rfl, hrest⟩ := bind_eq_ok.mp h
    obtain ⟨value, rfl, hdict⟩ := bind_eq_ok.mp hrest
    cases hdict
    exact .inr (.inr (.inl ⟨rfl, _, key, _, value, rfl, rfl⟩))
  · cases h
  · obtain ⟨ts, hts, rfl⟩ := map_eq_ok.mp h
    exact .inr (.inr (.inr (.inl ⟨rfl, by simp, ts, hts, rfl⟩)))
  · cases h
    exact .inr (.inr (.inr (.inr ⟨rfl, by simp, rfl⟩)))
  · cases h

namespace Names

/-- What an annotation stands for. -/
inductive Lowers (n : Names) : Expression → TypeExpr → Prop
  | atom {e : Expression} {t : TypeExpr} : n.lower e = .ok t → t.isAtom = true → Lowers n e t
  | list {base slice arg : Expression} {t : TypeExpr} :
      n.typing.generic? base = some .list → slice.arguments = [arg] → Lowers n arg t →
      Lowers n (.subscript base slice) (.list t)
  | optional {base slice arg : Expression} {t : TypeExpr} :
      n.typing.generic? base = some .optional → slice.arguments = [arg] → Lowers n arg t →
      Lowers n (.subscript base slice) (.optional t)
  | dict {base slice k v : Expression} {key value : TypeExpr} :
      n.typing.generic? base = some .dict → slice.arguments = [k, v] → Lowers n k key →
      Lowers n v value → Lowers n (.subscript base slice) (.dict key value)
  | union {base slice : Expression} {ts : List TypeExpr} :
      n.typing.generic? base = some .union → slice.arguments ≠ [] →
      slice.arguments.length = ts.length → (∀ p ∈ slice.arguments.zip ts, Lowers n p.1 p.2) →
      Lowers n (.subscript base slice) (.union ts)
  | literal {base slice : Expression} :
      n.typing.generic? base = some .literal → slice.arguments ≠ [] →
      Lowers n (.subscript base slice) (.literal (slice.arguments.map .ofExpression))

variable {n : Names} {e : Expression} {t : TypeExpr}

theorem lowerEach_eq (n : Names) (es : List Expression) :
    n.lowerEach es = es.map fun e => (e, n.lower e) := by
  induction es with
  | nil => rfl
  | cons e es ih => rw [lowerEach, ih, List.map_cons]

/-- A subscript is lowered by its construct, applied to its arguments. -/
theorem lower_subscript (n : Names) (base slice : Expression) :
    n.lower (.subscript base slice) =
      match n.typing.generic? base with
      | some c => c.apply (Expression.subscript base slice).describe
          (slice.arguments.map fun e => (e, n.lower e))
      | none => .error (notGeneric (.subscript base slice)) := by
  cases slice with
  | tuple elements => rw [lower, lowerEach_eq]; rfl
  | _ => rw [lower]; rfl; simp

theorem lowers_of_arguments {base slice : Expression} {c : Construct}
    (hc : n.typing.generic? base = some c)
    (ih : ∀ arg ∈ slice.arguments, ∀ t, n.lower arg = .ok t → n.Lowers arg t)
    (h : c.apply (Expression.subscript base slice).describe
      (slice.arguments.map fun e => (e, n.lower e)) = .ok t) :
    n.Lowers (.subscript base slice) t := by
  rcases Construct.apply_eq_ok h with ⟨rfl, e, item, hargs, rfl⟩ | ⟨rfl, e, inner, hargs, rfl⟩ |
    ⟨rfl, k, key, v, value, hargs, rfl⟩ | ⟨rfl, hne, ts, hts, rfl⟩ | ⟨rfl, hne, rfl⟩
  · obtain ⟨arg, hslice, harg⟩ := List.map_eq_singleton_iff.mp hargs
    obtain ⟨rfl, hlower⟩ := Prod.mk.inj harg
    exact .list hc hslice (ih arg (by simp [hslice]) item hlower)
  · obtain ⟨arg, hslice, harg⟩ := List.map_eq_singleton_iff.mp hargs
    obtain ⟨rfl, hlower⟩ := Prod.mk.inj harg
    exact .optional hc hslice (ih arg (by simp [hslice]) inner hlower)
  · obtain ⟨a, rest, hslice, ha, hrest⟩ := List.map_eq_cons_iff.mp hargs
    obtain ⟨b, rfl, hb⟩ := List.map_eq_singleton_iff.mp hrest
    obtain ⟨rfl, hkey⟩ := Prod.mk.inj ha
    obtain ⟨rfl, hvalue⟩ := Prod.mk.inj hb
    exact .dict hc hslice (ih a (by simp [hslice]) key hkey) (ih b (by simp [hslice]) value hvalue)
  · rw [List.mapM_map, mapM_eq_ok_iff, List.forall₂_iff_zip] at hts
    obtain ⟨hlen, hzip⟩ := hts
    refine .union hc (by simpa using hne) hlen fun p hp => ?_
    exact ih p.1 (List.of_mem_zip hp).1 p.2 (hzip hp)
  · rw [List.map_map]
    exact .literal hc (by simpa using hne)

theorem isAtom_of_typingName? {dotted : String} (h : n.typingName? dotted = some (.ok t)) :
    t.isAtom = true := by
  unfold typingName? at h
  split at h
  · cases h; rfl
  · cases h
  · cases h
  · split at h
    · cases h; rfl
    · cases h

theorem isAtom_of_lowerName {id : String} (h : n.lowerName id = .ok t) : t.isAtom = true := by
  unfold lowerName at h
  split at h
  · rename_i hn
    exact isAtom_of_typingName? (h ▸ hn)
  · split at h
    · cases h; rfl
    · split at h <;> cases h <;> rfl

theorem isAtom_of_lowerAttribute (h : n.lowerAttribute e = .ok t) : t.isAtom = true := by
  unfold lowerAttribute at h
  split at h
  · cases h
  · split at h
    · rename_i hn
      exact isAtom_of_typingName? (h ▸ hn)
    · split at h
      · cases h; rfl
      · cases h

theorem isAtom_of_constant {value : Constant} (h : n.lower (.constant value) = .ok t) :
    t.isAtom = true := by
  cases value <;> cases h
  rfl

/-- Whatever is lowered stands in the relation. -/
theorem lowers_of_lower (h : n.lower e = .ok t) : n.Lowers e t := by
  induction e using Expression.inductArguments generalizing t with
  | name id => exact .atom h (isAtom_of_lowerName h)
  | access value attr => exact .atom h (isAtom_of_lowerAttribute h)
  | constant value => exact .atom h (isAtom_of_constant h)
  | other => cases h
  | tuple elements =>
    rw [lower] at h
    cases h
  | subscript base slice ih =>
    rw [lower_subscript] at h
    split at h
    · rename_i c hc
      exact lowers_of_arguments hc (fun arg harg t => ih arg harg) h
    · cases h

end Names

/-- Whether the fault is that a type has no schema. -/
def Fault.IsUnsupportedType (fault : Fault) : Prop :=
  ∃ hint reason, fault = .unsupportedType hint reason

/-- A construct adds no other fault to those of its arguments. -/
theorem Construct.isUnsupportedType_of_apply {c : Construct} {whole : String} {fault : Fault}
    {args : List (Expression × Except Fault TypeExpr)}
    (hargs : ∀ a ∈ args, a.2 = .error fault → fault.IsUnsupportedType)
    (h : c.apply whole args = .error fault) : fault.IsUnsupportedType := by
  unfold Construct.apply at h
  split at h
  · exact hargs _ List.mem_cons_self (map_eq_error.mp h)
  · cases h
    exact ⟨_, _, rfl⟩
  · exact hargs _ List.mem_cons_self (map_eq_error.mp h)
  · cases h
    exact ⟨_, _, rfl⟩
  · rcases bind_eq_error.mp h with hkey | ⟨key, -, hrest⟩
    · exact hargs _ List.mem_cons_self hkey
    · rcases bind_eq_error.mp hrest with hvalue | ⟨value, -, hdict⟩
      · exact hargs _ (List.mem_cons_of_mem _ List.mem_cons_self) hvalue
      · cases hdict
  · cases h
    exact ⟨_, _, rfl⟩
  · obtain ⟨a, ha, hfault⟩ := exists_of_mapM_eq_error (map_eq_error.mp h)
    exact hargs a ha hfault
  · cases h
  · cases h
    exact ⟨_, _, rfl⟩

namespace Names

variable {n : Names} {e : Expression} {fault : Fault}

theorem isUnsupportedType_of_typingName? {dotted : String}
    (h : n.typingName? dotted = some (.error fault)) : fault.IsUnsupportedType := by
  unfold typingName? at h
  split at h
  · cases h
  · cases h
    exact ⟨_, _, rfl⟩
  · cases h
    exact ⟨_, _, rfl⟩
  · split at h <;> cases h

theorem isUnsupportedType_of_lowerName {id : String} (h : n.lowerName id = .error fault) :
    fault.IsUnsupportedType := by
  unfold lowerName at h
  split at h
  · rename_i hn
    exact isUnsupportedType_of_typingName? (h ▸ hn)
  · split at h
    · cases h
    · split at h <;> cases h

theorem isUnsupportedType_of_lowerAttribute (h : n.lowerAttribute e = .error fault) :
    fault.IsUnsupportedType := by
  unfold lowerAttribute at h
  split at h
  · cases h
    exact ⟨_, _, rfl⟩
  · split at h
    · rename_i hn
      exact isUnsupportedType_of_typingName? (h ▸ hn)
    · split at h
      · cases h
      · cases h
        exact ⟨_, _, rfl⟩

/-- An annotation is refused only because its type is not supported. -/
theorem isUnsupportedType_of_lower (h : n.lower e = .error fault) : fault.IsUnsupportedType := by
  induction e using Expression.inductArguments with
  | name id => exact isUnsupportedType_of_lowerName h
  | access value attr => exact isUnsupportedType_of_lowerAttribute h
  | constant value =>
    cases value <;> cases h
    all_goals exact ⟨_, _, rfl⟩
  | other =>
    cases h
    exact ⟨_, _, rfl⟩
  | tuple elements =>
    rw [lower] at h
    cases h
    exact ⟨_, _, rfl⟩
  | subscript base slice ih =>
    rw [lower_subscript] at h
    split at h
    · refine Construct.isUnsupportedType_of_apply (fun a ha hfault => ?_) h
      obtain ⟨arg, harg, rfl⟩ := List.mem_map.mp ha
      exact ih arg harg hfault
    · cases h
      exact ⟨_, _, rfl⟩

end Names

/-- Every union and every literal type has a member. -/
inductive TypeExpr.Filled : TypeExpr → Prop
  | atom {t : TypeExpr} : t.isAtom = true → Filled t
  | list {item : TypeExpr} : Filled item → Filled (.list item)
  | dict {key value : TypeExpr} : Filled key → Filled value → Filled (.dict key value)
  | optional {inner : TypeExpr} : Filled inner → Filled (.optional inner)
  | union {members : List TypeExpr} : members ≠ [] → (∀ t ∈ members, Filled t) →
      Filled (.union members)
  | literal {members : List LiteralMember} : members ≠ [] → Filled (.literal members)

theorem Names.Lowers.filled {n : Names} {e : Expression} {t : TypeExpr} (h : n.Lowers e t) :
    t.Filled := by
  induction h with
  | atom _ ht => exact .atom ht
  | list _ _ _ ih => exact .list ih
  | optional _ _ _ ih => exact .optional ih
  | dict _ _ _ _ ihk ihv => exact .dict ihk ihv
  | union _ hne hlen _ ih =>
    refine .union ?_ fun t ht => ?_
    · rintro rfl
      exact hne (List.eq_nil_of_length_eq_zero hlen)
    · obtain ⟨arg, harg⟩ := exists_mem_zip_right hlen ht
      exact ih (arg, t) harg
  | literal _ hne => exact .literal (by simpa using hne)

def Definition.Filled : Definition → Prop
  | .alias body => body.Filled
  | .record r => ∀ field ∈ r.fields, field.2.Filled
  | .invalid _ => True

namespace Extraction

variable {n : Names}

/-- The type of every field is written in the body of its class. -/
theorem mem_recordFields {fields result : Table String TypeExpr} {body : List Statement}
    (h : recordFields n fields body = .ok result) {field : String × TypeExpr}
    (hf : field ∈ result) : field ∈ fields ∨ ∃ hint, n.lower hint = .ok field.2 := by
  induction fields, body using recordFields.induct with
  | case1 fields =>
    cases h
    exact .inl hf
  | case2 fields id hint value rest ih =>
    rw [recordFields] at h
    obtain ⟨type, htype, hrest⟩ := bind_eq_ok.mp h
    rcases ih type hrest with hmem | hhint
    · rcases Table.mem_enter hmem with hmem | rfl
      · exact .inl hmem
      · exact .inr ⟨hint, htype⟩
    · exact .inr hhint
  | case3 fields s rest hs ih =>
    rw [recordFields] at h
    · exact ih h
    · exact hs

theorem ReadAs.filled {d : Definition} (h : ReadAs n d) : d.Filled := by
  cases h with
  | ofAlias value =>
    cases hlower : n.lower value with
    | error fault => trivial
    | ok t => exact (Names.lowers_of_lower hlower).filled
  | ofRecord keywords body =>
    cases hrecord : record n keywords body with
    | error fault => trivial
    | ok r =>
      obtain ⟨total, -, hrest⟩ := bind_eq_ok.mp hrecord
      obtain ⟨fields, hfields, hr⟩ := bind_eq_ok.mp hrest
      cases hr
      intro field hfield
      rcases mem_recordFields hfields hfield with hnil | ⟨hint, hhint⟩
      · exact absurd hnil List.not_mem_nil
      · exact (Names.lowers_of_lower hhint).filled

theorem isUnsupportedType_of_totality {keywords : List ClassKeyword} {fault : Fault}
    (h : totality keywords = .error fault) : fault.IsUnsupportedType := by
  unfold totality at h
  split at h
  · cases h
  · split at h
    · cases h
    · cases h
      exact ⟨_, _, rfl⟩

theorem isUnsupportedType_of_recordFields {fields : Table String TypeExpr} {body : List Statement}
    {fault : Fault} (h : recordFields n fields body = .error fault) : fault.IsUnsupportedType := by
  induction fields, body using recordFields.induct with
  | case1 fields => cases h
  | case2 fields id hint value rest ih =>
    rw [recordFields] at h
    rcases bind_eq_error.mp h with hhint | ⟨type, -, hrest⟩
    · exact Names.isUnsupportedType_of_lower hhint
    · exact ih type hrest
  | case3 fields s rest hs ih =>
    rw [recordFields] at h
    · exact ih h
    · exact hs

/-- A class is refused as a record for its totality or for the type of a field. -/
theorem isUnsupportedType_of_record {keywords : List ClassKeyword} {body : List Statement}
    {fault : Fault} (h : record n keywords body = .error fault) : fault.IsUnsupportedType := by
  rcases bind_eq_error.mp h with htotality | ⟨total, -, hrest⟩
  · exact isUnsupportedType_of_totality htotality
  · rcases bind_eq_error.mp hrest with hfields | ⟨fields, -, hok⟩
    · exact isUnsupportedType_of_recordFields hfields
    · cases hok

theorem ReadAs.isUnsupportedType {fault : Fault} (h : ReadAs n (.invalid fault)) :
    fault.IsUnsupportedType := by
  generalize hd : Definition.invalid fault = d at h
  cases h with
  | ofAlias value =>
    cases hlower : n.lower value with
    | ok t => simp [hlower, toDefinition] at hd
    | error other =>
      simp only [hlower, toDefinition, Definition.invalid.injEq] at hd
      exact hd ▸ Names.isUnsupportedType_of_lower hlower
  | ofRecord keywords body =>
    cases hrecord : record n keywords body with
    | ok r => simp [hrecord, toDefinition] at hd
    | error other =>
      simp only [hrecord, toDefinition, Definition.invalid.injEq] at hd
      exact hd ▸ isUnsupportedType_of_record hrecord

end Extraction

/-- What a target declares and cannot read is of a type that is not supported. -/
theorem ScanTarget.environment_isUnsupportedType {t : ScanTarget} {key : TypeKey} {fault : Fault}
    (h : t.environment.catalog.find? key = some (.invalid fault)) : fault.IsUnsupportedType := by
  obtain ⟨n, hread⟩ := t.environment_read key _ h
  exact hread.isUnsupportedType

/-- In what a target declares, every union and literal type has a member. -/
theorem ScanTarget.environment_filled (t : ScanTarget) : t.environment.All Definition.Filled := by
  intro key d hd
  obtain ⟨n, hread⟩ := t.environment_read key d hd
  exact hread.filled

end CallSchema
