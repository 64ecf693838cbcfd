import CallSchema.Proofs.ModulePaths
import CallSchema.Proofs.Spelling

/-! # Chains of attributes and dotted names

Names of typing constructs, external modules and base classes are recognised by their dotted form.
Chains of attributes whose identifiers have no dots are in one-to-one correspondence with dotted
names, and an expression that is no such chain has no dotted name.
-/

namespace CallSchema.Expression

/-- A name or attributes of a name, with identifiers that have no dots. -/
inductive PlainChain : Expression → Prop
  | name {id : String} : '.' ∉ id.toList → PlainChain (.name id)
  | access {value : Expression} {attr : String} : PlainChain value → '.' ∉ attr.toList →
      PlainChain (.attribute value attr)

/-- What is left of an expression without its attributes. -/
def root : Expression → Expression
  | .attribute value _ => value.root
  | e => e

variable {e e' : Expression}

theorem dotted_append_dot (path : String) {attr : String} (h : '.' ∉ attr.toList) :
    dotted (path ++ "." ++ attr) = .attribute (dotted path) attr := by
  have hattr : Dotted.parts attr = [attr] := by
    simp [Dotted.parts, Separated.split_of_notMem h]
  unfold dotted
  rw [Dotted.parts_append_dot, hattr]
  cases hparts : Dotted.parts path with
  | nil => simp [Dotted.parts, Separated.split_ne_nil] at hparts
  | cons first rest => simp

/-- A chain is the one that its dotted name stands for. -/
theorem PlainChain.exists_dotted (h : e.PlainChain) :
    ∃ path, e.dottedName = some path ∧ dotted path = e := by
  induction h with
  | @name id hid => exact ⟨id, rfl, dotted_of_notMem hid⟩
  | @access value attr _ hattr ih =>
    obtain ⟨path, hname, hdotted⟩ := ih
    refine ⟨path ++ "." ++ attr, ?_, ?_⟩
    · simp [dottedName, hname]
    · rw [dotted_append_dot path hattr, hdotted]

theorem PlainChain.eq_of_dottedName_eq (h : e.PlainChain) (h' : e'.PlainChain)
    (hname : e.dottedName = e'.dottedName) : e = e' := by
  obtain ⟨path, hpath, rfl⟩ := h.exists_dotted
  obtain ⟨path', hpath', rfl⟩ := h'.exists_dotted
  rw [hpath, hpath', Option.some.injEq] at hname
  rw [hname]

theorem PlainChain.foldl (h : e.PlainChain) {rest : List String}
    (hrest : ∀ attr ∈ rest, '.' ∉ attr.toList) :
    (rest.foldl Expression.attribute e).PlainChain := by
  induction rest generalizing e with
  | nil => exact h
  | cons attr rest ih =>
    exact ih (.access h (hrest attr List.mem_cons_self)) fun a ha =>
      hrest a (List.mem_cons_of_mem attr ha)

theorem plainChain_dotted (path : String) : (dotted path).PlainChain := by
  have hplain : ∀ part ∈ Dotted.parts path, '.' ∉ part.toList := by
    intro part hpart
    obtain ⟨cs, hcs, rfl⟩ := List.mem_map.mp hpart
    rw [String.toList_ofList]
    exact Separated.notMem_of_mem_split hcs
  unfold dotted
  split
  · exact .name (by simp)
  · rename_i first rest hparts
    rw [hparts] at hplain
    exact (PlainChain.name (hplain first List.mem_cons_self)).foldl fun attr hattr =>
      hplain attr (List.mem_cons_of_mem first hattr)

/-- Only chains that start with a name have a dotted name. -/
theorem dottedName_eq_none_iff : e.dottedName = none ↔ ∀ id, e.root ≠ .name id := by
  induction e with
  | access value attr ih => simpa [dottedName, root] using ih
  | _ => simp [dottedName, root]

/-- Dotted names stand for chains of attributes, each for one of its own and each chain being that
of its name; everything else has none. -/
theorem dotted_corresponds :
    (∀ path, (dotted path).dottedName = some path ∧ (dotted path).PlainChain) ∧
      (∀ e : Expression, e.PlainChain → ∃ path, e.dottedName = some path ∧ dotted path = e) ∧
      (∀ e e' : Expression, e.PlainChain → e'.PlainChain → e.dottedName = e'.dottedName →
        e = e') ∧
      ∀ e : Expression, e.dottedName = none ↔ ∀ id, e.root ≠ .name id := by
  refine ⟨fun path => ⟨dottedName_dotted path, plainChain_dotted path⟩, ?_, ?_, ?_⟩
  · intro e he
    exact he.exists_dotted
  · intro e e' he he' hname
    exact he.eq_of_dottedName_eq he' hname
  · intro e
    exact dottedName_eq_none_iff

/-- A chain with empty identifiers, and attributes of what is no name. -/
theorem dotted_corresponds_empty :
    (∃ path, (Expression.attribute (.attribute (.name "") "List") "").dottedName = some path ∧
      dotted path = .attribute (.attribute (.name "") "List") "") ∧
      (Expression.attribute (.attribute (.constant .none) "typing") "List").dottedName = none := by
  obtain ⟨-, hchain, -, hnone⟩ := dotted_corresponds
  refine ⟨hchain _ (.access (.access (.name ?_) ?_) ?_), (hnone _).mpr fun id => ?_⟩
  · decide
  · decide
  · decide
  · simp [root]

end CallSchema.Expression
