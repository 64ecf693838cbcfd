import CallSchema.Proofs.Declarations

/-! # Constants in source

The constants that stand anywhere in an expression, a statement or a module.
-/

namespace CallSchema

mutual

/-- The constants of an expression, from left to right. -/
def Expression.constants : Expression → List Constant
  | .attribute value _ => value.constants
  | .subscript value slice => value.constants ++ slice.constants
  | .tuple elements => Expression.constantsAll elements
  | .constant value => [value]
  | .name _ | .other => []

def Expression.constantsAll : List Expression → List Constant
  | [] => []
  | e :: es => e.constants ++ Expression.constantsAll es

end

theorem Expression.mem_constantsAll {c : Constant} {es : List Expression} :
    c ∈ Expression.constantsAll es ↔ ∃ e ∈ es, c ∈ e.constants := by
  induction es with
  | nil => simp [constantsAll]
  | cons e es ih => simp [constantsAll, ih]

/-- All arguments of a parameter list. -/
def Arguments.all (a : Arguments) : List Argument :=
  a.positionalOnly ++ a.positional ++ a.variadic.toList ++ a.keywordOnly ++ a.keywords.toList

/-- The annotations of the parameters and of the result. -/
def FunctionDef.annotations (f : FunctionDef) : List Expression :=
  f.args.all.filterMap Argument.hint ++ f.returns.toList

mutual

def Statement.constants : Statement → List Constant
  | .assign targets value => Expression.constantsAll targets ++ value.constants
  | .declare target hint value =>
    target.constants ++ hint.constants ++ Expression.constantsAll value.toList
  | .classDef _ bases keywords body =>
    Expression.constantsAll bases ++ Expression.constantsAll (keywords.map ClassKeyword.value) ++
      Statement.constantsAll body
  | .functionDef f => Expression.constantsAll f.annotations
  | .importModules _ | .importFrom .. | .other => []

def Statement.constantsAll : List Statement → List Constant
  | [] => []
  | s :: ss => s.constants ++ Statement.constantsAll ss

end

theorem Statement.mem_constantsAll {c : Constant} {ss : List Statement} :
    c ∈ Statement.constantsAll ss ↔ ∃ s ∈ ss, c ∈ s.constants := by
  induction ss with
  | nil => simp [constantsAll]
  | cons s ss ih => simp [constantsAll, ih]

def SyntaxTree.constants (t : SyntaxTree) : List Constant :=
  Statement.constantsAll t.body

theorem mem_of_mem_functionSites {site : FunctionSite} {before rest : List Statement}
    (h : site ∈ functionSites before rest) : .functionDef site.definition ∈ rest := by
  induction rest generalizing before with
  | nil => simp [functionSites] at h
  | cons s rest ih =>
    cases s with
    | functionDef f =>
      rcases List.mem_cons.mp h with rfl | h
      · exact List.mem_cons_self
      · exact List.mem_cons_of_mem _ (ih h)
    | _ => exact List.mem_cons_of_mem _ (ih h)

/-- The constants in the annotations of a function are constants of its module. -/
theorem SyntaxTree.mem_constants {t : SyntaxTree} {site : FunctionSite} (hs : site ∈ t.functions)
    {e : Expression} (he : e ∈ site.definition.annotations) {c : Constant} (hc : c ∈ e.constants) :
    c ∈ t.constants := by
  refine Statement.mem_constantsAll.mpr ⟨_, mem_of_mem_functionSites hs, ?_⟩
  exact Expression.mem_constantsAll.mpr ⟨e, he, hc⟩

end CallSchema
