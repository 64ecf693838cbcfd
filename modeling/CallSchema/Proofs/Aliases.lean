import Mathlib.Data.List.Forall2
import CallSchema.Proofs.Memo

/-! # Aliases are transparent

In the module that defines it, an alias can be replaced by what it stands for: neither the names
that are being resolved nor the memo tell the two apart. Only the report of a fault may differ.
-/

namespace CallSchema

/-- Whether two results succeed alike: one does exactly if the other does, with the same value. -/
def SucceedAlike {α : Type} (x y : Except Fault α) : Prop :=
  ∀ a, x = .ok a ↔ y = .ok a

namespace SucceedAlike

variable {α β : Type}

theorem refl (x : Except Fault α) : SucceedAlike x x :=
  fun _ => Iff.rfl

theorem bind {x y : Except Fault α} {f g : α → Except Fault β} (h : SucceedAlike x y)
    (hf : ∀ a, SucceedAlike (f a) (g a)) : SucceedAlike (x >>= f) (y >>= g) := by
  intro b
  rw [bind_eq_ok, bind_eq_ok]
  exact exists_congr fun a => and_congr (h a) (hf a b)

/-- If one of two results that succeed alike is a success, they are the same. -/
theorem eq_of_ok {x y : Except Fault α} (h : SucceedAlike x y) {a : α}
    (ha : x = .ok a ∨ y = .ok a) : x = y := by
  rcases ha with hx | hy
  · rw [hx, (h a).mp hx]
  · rw [hy, (h a).mpr hy]

end SucceedAlike

namespace TypeExpr

mutual

/-- The type expression with `body` in place of every occurrence of a name. -/
def inline (name : String) (body : TypeExpr) : TypeExpr → TypeExpr
  | .list item => .list (inline name body item)
  | .dict key value => .dict (inline name body key) (inline name body value)
  | .optional inner => .optional (inline name body inner)
  | .union members => .union (inlineAll name body members)
  | .reference other => if other = name then body else .reference other
  | .primitive p => .primitive p
  | .none => .none
  | .any => .any
  | .literal members => .literal members
  | .external other => .external other
  | .unsupported other => .unsupported other

def inlineAll (name : String) (body : TypeExpr) : List TypeExpr → List TypeExpr
  | [] => []
  | e :: es => inline name body e :: inlineAll name body es

end

theorem inlineAll_eq (name : String) (body : TypeExpr) (es : List TypeExpr) :
    inlineAll name body es = es.map (inline name body) := by
  induction es with
  | nil => rfl
  | cons e es ih => rw [inlineAll, ih, List.map_cons]

end TypeExpr

namespace Direct

variable {named : String → Except Fault Schema} {m : ModulePath}

theorem expandAll_succeedAlike {es es' : List TypeExpr}
    (h : List.Forall₂ (fun e e' => SucceedAlike (expand named m e) (expand named m e')) es es') :
    SucceedAlike (expandAll named m es) (expandAll named m es') := by
  induction h with
  | nil => exact .refl _
  | cons he _ ih => exact he.bind fun _ => ih.bind fun _ => .refl _

/-- A name can be replaced wherever it occurs by an expression that succeeds alike. -/
theorem expand_inline {name : String} {body : TypeExpr}
    (h : SucceedAlike (named name) (expand named m body)) (e : TypeExpr) :
    SucceedAlike (expand named m e) (expand named m (TypeExpr.inline name body e)) := by
  induction e with
  | primitive | none | any | literal | external | unsupported => exact .refl _
  | list item ih | optional inner ih => exact ih.bind fun _ => .refl _
  | dict key value ihk ihv =>
    refine ihk.bind fun keys => ?_
    split
    · exact ihv.bind fun _ => .refl _
    · exact fun _ => by simp
  | union members ih =>
    rw [TypeExpr.inline, TypeExpr.inlineAll_eq]
    refine (expandAll_succeedAlike ?_).bind fun _ => .refl _
    exact List.forall₂_map_right_iff.mpr (List.forall₂_same.mpr ih)
  | reference other =>
    rw [TypeExpr.inline]
    split
    · rename_i he
      exact he ▸ h
    · exact .refl _

end Direct

section

variable {env : Environment} {hops : Nat} {m : ModulePath} {name : String} {body : TypeExpr}

/-- The alias may be among the names of its own body; then neither has a schema. -/
theorem Direct.reference_alias (h : env.catalog.find? ⟨m, name⟩ = some (.alias body)) :
    SucceedAlike (reference env hops [] m name) (expand (reference env hops [] m) m body) := by
  intro s
  have hbody : expand (reference env hops [] m) m body = .ok s ↔ Resolves env hops m body s :=
    Direct.resolve_eq_ok_iff
  rw [hbody]
  exact reference_own_eq_ok_iff h

/-- Aliases are transparent: in the module of an alias, replacing its name by what it stands for
changes neither whether a type expression resolves nor its schema. -/
theorem Environment.resolve_inline_iff (env : Environment) (hops : Nat) (m : ModulePath)
    (name : String) (body : TypeExpr) (halias : env.catalog.find? ⟨m, name⟩ = some (.alias body))
    (e : TypeExpr) (s : Schema) :
    ((env.resolve hops m e).run .fresh).1 = .ok s ↔
      ((env.resolve hops m (TypeExpr.inline name body e)).run .fresh).1 = .ok s := by
  rw [run_resolve_fresh, run_resolve_fresh]
  exact Direct.expand_inline (Direct.reference_alias halias) e s

end

/-- A module that defines `Key` although it also imports the name, from itself and from outside;
`Never`, a list of itself, does not resolve. -/
def Environment.naming : Environment where
  catalog := [(⟨⟨"m"⟩, "Key"⟩, .alias (.primitive .str)),
    (⟨⟨"m"⟩, "Never"⟩, .alias (.list (.reference "Never")))]
  scopes := [(⟨"m"⟩, ⟨[⟨"m"⟩], [("Key", ⟨⟨"m"⟩, "Never"⟩)], ["Key"]⟩)]

theorem resolve_inline_iff_naming :
    Environment.naming.catalog.find? ⟨⟨"m"⟩, "Key"⟩ = some (.alias (.primitive .str)) ∧
      ((Environment.naming.resolve 4 ⟨"m"⟩
          (.dict (.reference "Key") (.optional (.reference "Key")))).run .fresh).1 =
        .ok (.map (.anyOf [.string, .null])) := by
  refine ⟨rfl, ?_⟩
  exact (Environment.resolve_inline_iff .naming 4 ⟨"m"⟩ "Key" (.primitive .str) rfl _ _).mpr rfl

end CallSchema
