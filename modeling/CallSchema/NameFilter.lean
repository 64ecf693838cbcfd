import CallSchema.Pattern.Matching
import CallSchema.Text

/-! # Name filters

Which modules and functions are compiled. A name passes if it matches some include pattern, or
there is none, and matches no exclude pattern.
-/

namespace CallSchema

inductive NameKind where
  | module
  | function
deriving DecidableEq, Repr

/-- A decision on every name. -/
structure NameFilter where
  allows : NameKind → String → Bool

def NameFilter.allowAll : NameFilter :=
  ⟨fun _ _ => true⟩

/-- A pattern that does not compile. -/
structure FilterError where
  pattern : String
  error : Pattern.SyntaxError
deriving DecidableEq, Repr

def FilterError.message (e : FilterError) : String :=
  "invalid pattern '" ++ e.pattern ++ "': Pattern syntax error near position "
    ++ intText e.error.position ++ ": " ++ e.error.problem.text

/-- Include and exclude patterns; they treat modules and functions alike. -/
structure PatternFilter where
  included : List Pattern
  excluded : List Pattern
deriving DecidableEq, Repr

namespace PatternFilter

def compilePattern (text : String) : Except FilterError Pattern :=
  (Pattern.compile text).mapError fun e => ⟨text, e⟩

/-- The first pattern that does not compile is reported, of the included ones before the others. -/
def compile (included excluded : List String) : Except FilterError PatternFilter := do
  let included ← included.mapM compilePattern
  let excluded ← excluded.mapM compilePattern
  .ok ⟨included, excluded⟩

def isEmpty (f : PatternFilter) : Bool :=
  f.included.isEmpty && f.excluded.isEmpty

def allows (f : PatternFilter) (name : String) : Bool :=
  (f.included.isEmpty || f.included.any (·.accepts name)) && !f.excluded.any (·.accepts name)

def toNameFilter (f : PatternFilter) : NameFilter :=
  ⟨fun _ => f.allows⟩

end PatternFilter

end CallSchema
