import CallSchema.Proofs.JsonText
import CallSchema.Proofs.NodeFields
import CallSchema.Proofs.NodeLayout
import CallSchema.Proofs.Results

/-! # What the decoder looks at

The decoder looks up the declared fields of each node and nothing else. Two nodes whose fields agree
are decoded alike, whatever the order of their members and whatever else they hold.
-/

namespace CallSchema

open Decode

/-! ## Optional values -/

section Optional

variable {α β γ δ : Type} {r : α → β → Prop} {o : Option α} {o' : Option β}

theorem rel_imp {s : α → β → Prop} (h : Option.Rel r o o')
    (himp : ∀ a b, o = some a → o' = some b → r a b → s a b) : Option.Rel s o o' := by
  cases h with
  | some h => exact .some (himp _ _ rfl rfl h)
  | none => exact .none

theorem rel_map {s : γ → δ → Prop} {f : α → γ} {g : β → δ} (h : Option.Rel r o o')
    (hfg : ∀ a b, o = some a → r a b → s (f a) (g b)) : Option.Rel s (o.map f) (o'.map g) := by
  cases h with
  | some h => exact .some (hfg _ _ rfl h)
  | none => exact .none

theorem rel_map_self {s : γ → δ → Prop} {f : α → γ} {g : α → δ} (o : Option α)
    (h : ∀ a, s (f a) (g a)) : Option.Rel s (o.map f) (o.map g) := by
  cases o with
  | some a => exact .some (h a)
  | none => exact .none

theorem bind_eq_of_rel {f : α → Option γ} {g : β → Option γ} (h : Option.Rel r o o')
    (hfg : ∀ a b, r a b → f a = g b) : o.bind f = o'.bind g := by
  cases h with
  | some h => exact hfg _ _ h
  | none => rfl

theorem rel_refl {r : α → α → Prop} (h : ∀ a, r a a) (o : Option α) : Option.Rel r o o := by
  cases o with
  | some a => exact .some (h a)
  | none => exact .none

end Optional

/-! ## Fields that agree -/

section Fields

variable {α : Type} {R : Place → Json → Json → Prop} {fields : Table String Place} {v w : Json}

/-- Tables of fields that are related name by name. -/
def TableRel (R : Place → Json → Json → Prop) (fields : Table String Place)
    (fs gs : Table String Json) : Prop :=
  ∀ name place, fields.find? name = some place →
    Option.Rel (R place) (fs.find? name) (gs.find? name)

/-- The fields of two nodes, as far as there are any, are related name by name. -/
def FieldsRel (R : Place → Json → Json → Prop) (fields : Table String Place) (v w : Json) : Prop :=
  Option.Rel (TableRel R fields) (fields? fields.keys v) (fields? fields.keys w)

theorem FieldsRel.bind {f g : Table String Json → Option α} (h : FieldsRel R fields v w)
    (hfg : ∀ fs gs, TableRel R fields fs gs → f fs = g gs) :
    (fields? fields.keys v).bind f = (fields? fields.keys w).bind g :=
  bind_eq_of_rel h hfg

theorem rel_of_eq {p : Place} {o o' : Option Json} (h : o = o') : Option.Rel (Agree p) o o' :=
  h ▸ rel_refl (Agree.refl p) o

theorem fieldsRel_of_eq (h : fields? fields.keys v = fields? fields.keys w) :
    FieldsRel Agree fields v w := by
  rw [FieldsRel, h]
  exact rel_refl (fun fs name place _ => rel_of_eq rfl) _

variable {S : Json → Json → Prop} {f g : Json → Option α} {fs gs : Table String Json}
  {name : String}

theorem required?_congr (h : Option.Rel S (fs.find? name) (gs.find? name))
    (hfg : ∀ {v w}, S v w → f v = g w) : required? f fs name = required? g gs name :=
  bind_eq_of_rel h fun _ _ h => hfg h

theorem defaulted?_congr {default : α} (h : Option.Rel S (fs.find? name) (gs.find? name))
    (hfg : ∀ {v w}, S v w → f v = g w) :
    defaulted? f default fs name = defaulted? g default gs name := by
  rw [defaulted?, defaulted?]
  generalize fs.find? name = o, gs.find? name = o' at h
  cases h with
  | some h => exact hfg h
  | none => rfl

theorem nullable?_congr (hnull : v = .null ↔ w = .null) (h : f v = g w) :
    nullable? f v = nullable? g w := by
  by_cases hv : v = .null
  · rw [hv, hnull.mp hv]
    rfl
  · rw [nullable?_of_ne_null hv, nullable?_of_ne_null (mt hnull.mpr hv), h]

theorem optional?_congr {p : Place} (h : Option.Rel (Agree p) (fs.find? name) (gs.find? name))
    (hfg : ∀ {v w}, Agree p v w → f v = g w) : optional? f fs name = optional? g gs name :=
  defaulted?_congr h fun h => nullable?_congr h.null_iff (hfg h)

end Fields

namespace Decode

variable {v w : Json}

theorem importedName?_congr (h : FieldsRel Agree (Role.layout .importedName v) v w) :
    importedName? v = importedName? w := by
  refine h.bind fun fs gs h => ?_
  rw [required?_congr (h "name" .plain rfl) Alike.string?,
    optional?_congr (h "asname" .plain rfl) Alike.string?]

theorem keyword?_congr (h : FieldsRel Agree (Role.layout .keyword v) v w) :
    keyword? v = keyword? w := by
  refine h.bind fun fs gs h => ?_
  rw [required?_congr (h "arg" .plain rfl) Alike.string?,
    required?_congr (h "value" (.node .expression) rfl) Agree.expression]

theorem argument?_congr (h : FieldsRel Agree (Role.layout .argument v) v w) :
    argument? v = argument? w := by
  refine h.bind fun fs gs h => ?_
  rw [required?_congr (h "name" .plain rfl) Alike.string?,
    optional?_congr (h "annotation" (.node .expression) rfl) Agree.expression,
    defaulted?_congr (h "has_default" .plain rfl) Alike.bool?]

theorem arguments?_congr (h : FieldsRel Agree (Role.layout .arguments v) v w) :
    arguments? v = arguments? w := by
  refine h.bind fun fs gs h => ?_
  rw [defaulted?_congr (h "posonlyargs" (.nodes .argument) rfl) Agree.argumentList,
    defaulted?_congr (h "args" (.nodes .argument) rfl) Agree.argumentList,
    optional?_congr (h "vararg" (.node .argument) rfl) Agree.argument,
    defaulted?_congr (h "kwonlyargs" (.nodes .argument) rfl) Agree.argumentList,
    optional?_congr (h "kwarg" (.node .argument) rfl) Agree.argument]

theorem functionDef?_congr (h : FieldsRel Agree StatementKind.functionDef.fields v w) :
    functionDef? v = functionDef? w := by
  refine h.bind fun fs gs h => ?_
  rw [required?_congr (h "name" .plain rfl) Alike.string?,
    defaulted?_congr (h "args" (.node .arguments) rfl) Agree.arguments,
    optional?_congr (h "returns" (.node .expression) rfl) Agree.expression,
    optional?_congr (h "lineno" .plain rfl) Alike.word?,
    optional?_congr (h "col_offset" .plain rfl) Alike.word?]

end Decode

/-! ## Nodes that tell their kind -/

/-- Nodes of one kind whose fields are related name by name. -/
def TaggedRel {κ : Type} (kinds : List κ) (label : κ → String) (nested : Bool)
    (fields : κ → Table String Place) (R : Place → Json → Json → Prop) (v w : Json) : Prop :=
  Option.Rel (fun p q => p.1 = q.1 ∧ FieldsRel R (kindFields fields p.1) p.2 q.2)
    (tagged? kinds label nested v) (tagged? kinds label nested w)

section Depth

variable {κ : Type} {kinds : List κ} {label : κ → String} {nested : Bool}
  {kindOf : κ → Table String Place} {fields : Table String Place} {v w : Json} {n n' : Nat}

theorem depthMembers_le {ms : List (String × Json)} (h : ∀ m ∈ ms, m.2.depth ≤ n) :
    Json.depthMembers ms ≤ n := by
  induction ms with
  | nil => exact Nat.zero_le n
  | cons m ms ih =>
    obtain ⟨hm, hms⟩ := List.forall_mem_cons.mp h
    exact Nat.max_le.mpr ⟨hm, ih hms⟩

/-- A field is nested less deep than its node. -/
theorem depth_field {names : List String} {fs : Table String Json} {name : String} {x : Json}
    (hv : v.depth ≤ n + 1) (hfs : fields? names v = some fs) (hx : fs.find? name = some x) :
    x.depth ≤ n := by
  have hmem := Table.mem_of_find? hx
  unfold fields? at hfs
  split at hfs
  · dsimp only at hfs
    split at hfs
    · cases hfs
      exact Json.depth_member hv (List.mem_of_mem_filter hmem)
    · cases hfs
  · split at hfs
    · cases hfs
      exact Json.depth_item hv (List.of_mem_zip hmem).2
    · cases hfs
  · cases hfs

/-- A node is nested no deeper without its kind. -/
theorem depth_tagged {k : Option κ} {node : Json} (hv : v.depth ≤ n + 1)
    (h : tagged? kinds label nested v = some (k, node)) : node.depth ≤ n + 1 := by
  unfold tagged? at h
  split at h
  · split at h
    · obtain ⟨k, -, hnode⟩ := Option.bind_eq_some_iff.mp h
      cases hnode
      exact Nat.succ_le_succ (depthMembers_le fun m hm =>
        Json.depth_member hv (List.mem_of_mem_filter hm))
    · cases h
  · obtain ⟨k, -, hnode⟩ := Option.bind_eq_some_iff.mp h
    cases hnode
    exact (Nat.succ_le_succ (Nat.le_max_right ..)).trans hv
  · cases h

/-- Without parts there is no kind. -/
theorem tagged?_of_depth_zero (h : v.depth = 0) : tagged? kinds label nested v = none := by
  cases v with
  | arr vs | obj ms => cases h
  | _ => rfl

/-- Agreement of values that are nested at most so deep. -/
def Bounded (n n' : Nat) (p : Place) (v w : Json) : Prop :=
  Agree p v w ∧ v.depth ≤ n ∧ w.depth ≤ n'

theorem TableRel.agree {fs gs : Table String Json} (h : TableRel (Bounded n n') fields fs gs) :
    TableRel Agree fields fs gs := fun name place hplace =>
  rel_imp (h name place hplace) fun _ _ _ _ h => h.1

theorem FieldsRel.agree (h : FieldsRel (Bounded n n') fields v w) : FieldsRel Agree fields v w :=
  rel_imp h fun _ _ _ _ h => h.agree

theorem FieldsRel.bounded (h : FieldsRel Agree fields v w) (hv : v.depth ≤ n + 1)
    (hw : w.depth ≤ n' + 1) : FieldsRel (Bounded n n') fields v w := by
  refine rel_imp h fun fs gs hfs hgs h name place hplace => ?_
  refine rel_imp (h name place hplace) fun x y hx hy hxy => ?_
  exact ⟨hxy, depth_field hv hfs hx, depth_field hw hgs hy⟩

theorem TaggedRel.bounded (h : TaggedRel kinds label nested kindOf Agree v w)
    (hv : v.depth ≤ n + 1) (hw : w.depth ≤ n' + 1) :
    TaggedRel kinds label nested kindOf (Bounded n n') v w := by
  refine rel_imp h fun p q hp hq ⟨hk, h⟩ => ⟨hk, ?_⟩
  exact h.bounded (depth_tagged hv hp) (depth_tagged hw hq)

theorem taggedRel_refl (v : Json) : TaggedRel kinds label nested kindOf Agree v v :=
  rel_refl (fun _ => ⟨rfl, fieldsRel_of_eq rfl⟩) _

theorem TaggedRel.bind {α : Type} {R : Place → Json → Json → Prop}
    {f g : Option κ × Json → Option α} (h : TaggedRel kinds label nested kindOf R v w)
    (hfg : ∀ k node node', FieldsRel R (kindFields kindOf k) node node' →
      f (k, node) = g (k, node')) :
    (tagged? kinds label nested v).bind f = (tagged? kinds label nested w).bind g := by
  refine bind_eq_of_rel h fun ⟨k, node⟩ ⟨k', node'⟩ ⟨hk, h⟩ => ?_
  cases hk
  exact hfg k node node' h

theorem list?_congr {α : Type} {f g : Json → Option α} (h : ∀ x, x.depth ≤ n → f x = g x)
    (hv : v.depth ≤ n) : list? f v = list? g v := by
  cases v with
  | arr vs =>
    have hitems : ∀ x ∈ vs, f x = g x := fun x hx =>
      h x ((Json.depth_le_depthAll hx).trans (Nat.le_of_succ_le hv))
    exact mapM_congr hitems
  | _ => rfl

/-- A decoder that follows nested nodes as deep as it is told, and does not tell apart nodes that
are related if it does not tell apart what they hold. -/
structure Follows {α : Type} (decode? : Nat → Bool → Json → Option α)
    (Rel : Bool → Json → Json → Prop) : Prop where
  refl (nested : Bool) (v : Json) : Rel nested v v
  flat {v : Json} {depth : Nat} {nested : Bool} : v.depth = 0 → decode? depth nested v = none
  step {v w : Json} {depth depth' n n' : Nat} {nested : Bool} : Rel nested v w →
    v.depth ≤ n + 1 → w.depth ≤ n' + 1 →
    (∀ x, x.depth ≤ n → decode? depth true x = decode? x.depth true x) →
    (∀ y, y.depth ≤ n' → decode? depth' true y = decode? y.depth true y) →
    decode? (depth + 1) nested v = decode? (depth' + 1) nested w

namespace Follows

variable {α : Type} {decode? : Nat → Bool → Json → Option α} {Rel : Bool → Json → Json → Prop}

/-- More depth than a value has does not matter. -/
theorem of_depth_le (hf : Follows decode? Rel) (h : v.depth ≤ n) (nested : Bool) :
    decode? n nested v = decode? v.depth nested v := by
  induction n using Nat.strongRecOn generalizing v nested with
  | ind n ih =>
    rcases Nat.eq_zero_or_pos v.depth with hd | hd
    · rw [hf.flat hd, hf.flat hd]
    · obtain ⟨n, rfl⟩ := Nat.exists_eq_add_one_of_ne_zero (Nat.ne_zero_of_lt (hd.trans_le h))
      obtain ⟨k, hk⟩ := Nat.exists_eq_add_one_of_ne_zero (Nat.ne_zero_of_lt hd)
      rw [hk] at h ⊢
      exact hf.step (hf.refl nested v) hk.le hk.le
        (fun x hx => ih n (by omega) (by omega) true) (fun x hx => ih k (by omega) hx true)

theorem congr (hf : Follows decode? Rel) (h : Rel nested v w) :
    decode? v.depth nested v = decode? w.depth nested w := by
  have hv : v.depth ≤ max v.depth w.depth + 1 := (Nat.le_max_left ..).trans (Nat.le_succ _)
  have hw : w.depth ≤ max v.depth w.depth + 1 := (Nat.le_max_right ..).trans (Nat.le_succ _)
  have hstep := hf.step h hv hw (fun x hx => hf.of_depth_le hx true)
    (fun y hy => hf.of_depth_le hy true)
  rwa [hf.of_depth_le hv, hf.of_depth_le hw] at hstep

end Follows

end Depth

namespace Decode

variable {v w : Json} {n n' : Nat}

/-- What is left of a node of another kind is a node without fields. -/
theorem other?_eq {α : Type} (a : α) (v : Json) :
    other? a v = (fields? [] v).bind fun _ => some a := by
  cases v with
  | arr vs => cases vs <;> rfl
  | obj ms => simp [other?, fields?, Table.keys]
  | _ => rfl

theorem other?_congr {α : Type} {R : Place → Json → Json → Prop} {a : α} (h : FieldsRel R [] v w) :
    other? a v = other? a w := by
  rw [other?_eq, other?_eq]
  exact h.bind fun _ _ _ => rfl

/-- The subexpressions that are read as such at one depth are so at the other. -/
theorem expression?_congr {depth depth' : Nat} {nested : Bool}
    (h : TaggedRel ExpressionKind.all ExpressionKind.label nested ExpressionKind.fields Agree v w)
    (hv : v.depth ≤ n + 1) (hw : w.depth ≤ n' + 1)
    (hsub : ∀ x, x.depth ≤ n → expression? depth true x = nestedExpression? x)
    (hsub' : ∀ y, y.depth ≤ n' → expression? depth' true y = nestedExpression? y) :
    expression? (depth + 1) nested v = expression? (depth' + 1) nested w := by
  have hone : ∀ {x y}, Bounded n n' (.node .expression) x y →
      expression? depth true x = expression? depth' true y := by
    intro x y ⟨hxy, hx, hy⟩
    rw [hsub x hx, hsub' y hy, hxy.expression]
  have hlist : ∀ {x y}, Bounded n n' (.nodes .expression) x y →
      list? (expression? depth true) x = list? (expression? depth' true) y := by
    intro x y ⟨hxy, hx, hy⟩
    rw [list?_congr hsub hx, list?_congr hsub' hy, hxy.expressions]
  refine (h.bounded hv hw).bind fun k node node' hb => ?_
  have h := hb.agree
  match k with
  | none => exact other?_congr h
  | some .name =>
    refine h.bind fun fs gs h => ?_
    rw [required?_congr (h "id" .plain rfl) Alike.string?]
  | some .attribute =>
    refine hb.bind fun fs gs hb => ?_
    rw [required?_congr (hb "value" (.node .expression) rfl) hone,
      required?_congr (hb.agree "attr" .plain rfl) Alike.string?]
  | some .subscript =>
    refine hb.bind fun fs gs hb => ?_
    rw [required?_congr (hb "value" (.node .expression) rfl) hone,
      required?_congr (hb "slice" (.node .expression) rfl) hone]
  | some .tuple =>
    refine hb.bind fun fs gs hb => ?_
    rw [required?_congr (hb "elts" (.nodes .expression) rfl) hlist]
  | some .constant =>
    refine h.bind fun fs gs h => ?_
    rw [required?_congr (h "value" .plain rfl) Alike.constant?]

theorem statement?_congr {depth depth' : Nat} {nested : Bool}
    (h : TaggedRel StatementKind.all StatementKind.label nested StatementKind.fields Agree v w)
    (hv : v.depth ≤ n + 1) (hw : w.depth ≤ n' + 1)
    (hsub : ∀ x, x.depth ≤ n → statement? depth true x = statement? x.depth true x)
    (hsub' : ∀ y, y.depth ≤ n' → statement? depth' true y = statement? y.depth true y) :
    statement? (depth + 1) nested v = statement? (depth' + 1) nested w := by
  have hbody : ∀ {x y}, Bounded n n' (.nodes (.statement true)) x y →
      list? (statement? depth true) x = list? (statement? depth' true) y := by
    intro x y ⟨hxy, hx, hy⟩
    rw [list?_congr hsub hx, list?_congr hsub' hy]
    exact hxy.2
  refine (h.bounded hv hw).bind fun k node node' hb => ?_
  have h := hb.agree
  match k with
  | none => exact other?_congr h
  | some .importModules =>
    refine h.bind fun fs gs h => ?_
    rw [required?_congr (h "names" (.nodes .importedName) rfl) Agree.importedNames]
  | some .importFrom =>
    refine h.bind fun fs gs h => ?_
    rw [optional?_congr (h "module" .plain rfl) Alike.string?,
      defaulted?_congr (h "level" .plain rfl) Alike.word?,
      required?_congr (h "names" (.nodes .importedName) rfl) Agree.importedNames]
  | some .assign =>
    refine h.bind fun fs gs h => ?_
    rw [required?_congr (h "targets" (.nodes .expression) rfl) Agree.expressions,
      required?_congr (h "value" (.node .expression) rfl) Agree.expression]
  | some .declare =>
    refine h.bind fun fs gs h => ?_
    rw [required?_congr (h "target" (.node .expression) rfl) Agree.expression,
      required?_congr (h "annotation" (.node .expression) rfl) Agree.expression,
      optional?_congr (h "value" (.node .expression) rfl) Agree.expression]
  | some .classDef =>
    refine hb.bind fun fs gs hb => ?_
    have h := hb.agree
    rw [required?_congr (h "name" .plain rfl) Alike.string?,
      defaulted?_congr (h "bases" (.nodes .expression) rfl) Agree.expressions,
      defaulted?_congr (h "keywords" (.nodes .keyword) rfl) Agree.keywords,
      defaulted?_congr (hb "body" (.nodes (.statement true)) rfl) hbody]
  | some .functionDef => exact congrArg (Option.map Statement.functionDef) (functionDef?_congr h)

theorem follows_expression? : Follows expression? fun nested =>
    TaggedRel ExpressionKind.all ExpressionKind.label nested ExpressionKind.fields Agree where
  refl _ v := taggedRel_refl v
  flat {v depth nested} h := by
    cases depth with
    | zero => rfl
    | succ depth =>
      simp only [expression?, tagged?_of_depth_zero h]
      rfl
  step := expression?_congr

theorem follows_statement? : Follows statement? fun nested =>
    TaggedRel StatementKind.all StatementKind.label nested StatementKind.fields Agree where
  refl _ v := taggedRel_refl v
  flat {v depth nested} h := by
    cases depth with
    | zero => rfl
    | succ depth =>
      simp only [statement?, tagged?_of_depth_zero h]
      rfl
  step := statement?_congr

theorem ofJson?_congr (h : FieldsRel Agree (Role.layout .module v) v w) :
    SyntaxTree.ofJson? v = SyntaxTree.ofJson? w := by
  refine (h.bounded (Nat.le_succ _) (Nat.le_succ _)).bind fun fs gs hb => ?_
  have hbody : ∀ {x y}, Bounded v.depth w.depth (.nodes (.statement false)) x y →
      list? (statement? v.depth false) x = list? (statement? w.depth false) y := by
    intro x y ⟨hxy, hx, hy⟩
    rw [list?_congr (fun _ h => follows_statement?.of_depth_le h false) hx,
      list?_congr (fun _ h => follows_statement?.of_depth_le h false) hy]
    exact hxy.2
  rw [defaulted?_congr (hb "body" (.nodes (.statement false)) rfl) hbody]

end Decode

end CallSchema
