import CallSchema.Pattern.Basic

/-! # Matching names

What it means that the tokens of a pattern match a text, and a matcher that goes through the text
once for every token. The matcher keeps, for all ends of the text, whether the tokens read so far
match them; its row of answers is that of the plain definition.
-/

namespace CallSchema.Pattern

def Token.matchesChar (c : Char) : Token → Bool
  | .exactly d => c == d
  | .anyChar => true
  | .within set => set.any (CharClass.holds c)
  | .outside set => !set.any (CharClass.holds c)
  | _ => false

/-- Some end of the text satisfies `p`. -/
def someSuffix (p : List Char → Bool) : List Char → Bool
  | [] => p []
  | c :: cs => p (c :: cs) || someSuffix p cs

/-- Some end of the text that follows a slash satisfies `p`. -/
def someComponent (p : List Char → Bool) : List Char → Bool
  | [] => false
  | c :: cs => (c == '/' && p cs) || someComponent p cs

/-- Whether the tokens match a whole text. A recursive token takes nothing, everything, or a part
that ends in a slash. -/
def matchesTokens : List Token → List Char → Bool
  | [], cs => cs.isEmpty
  | .anySequence :: ts, cs => someSuffix (matchesTokens ts) cs
  | .anyComponents :: ts, cs =>
    matchesTokens ts cs || someComponent (matchesTokens ts) cs || matchesTokens ts []
  | t :: ts, c :: cs => t.matchesChar c && matchesTokens ts cs
  | _ :: _, [] => false

/-- A row has one answer for each end of a text, the whole text first. -/
abbrev Row := List Bool

namespace Row

/-- The answer for the whole text. -/
def whole (row : Row) : Bool :=
  row.headD false

/-- The answers of a predicate. -/
def of (p : List Char → Bool) : List Char → Row
  | [] => [p []]
  | c :: cs => p (c :: cs) :: of p cs

/-- One character, then an end that the row accepts. -/
def afterChar (test : Char → Bool) : List Char → Row → Row
  | c :: cs, _ :: row => (test c && whole row) :: afterChar test cs row
  | _, _ => [false]

/-- Any characters, then an end that the row accepts. -/
def afterAny : Row → Row
  | [] => []
  | b :: row =>
    let later := afterAny row
    (b || whole later) :: later

/-- Any characters and a slash, then an end that the row accepts. -/
def afterSlash : List Char → Row → Row
  | c :: cs, _ :: row =>
    let later := afterSlash cs row
    ((c == '/' && whole row) || whole later) :: later
  | _, _ => [false]

@[simp] theorem whole_of (p : List Char → Bool) (cs : List Char) : (of p cs).whole = p cs := by
  cases cs <;> rfl

theorem getLastD_of (p : List Char → Bool) (cs : List Char) :
    (of p cs).getLastD false = p [] := by
  induction cs with
  | nil => rfl
  | cons c cs ih =>
    cases cs with
    | nil => rfl
    | cons d cs => simpa [of] using ih

theorem afterChar_of (test : Char → Bool) (p : List Char → Bool) (cs : List Char) :
    afterChar test cs (of p cs) =
      of (fun | c :: cs => test c && p cs | [] => false) cs := by
  induction cs with
  | nil => rfl
  | cons c cs ih => simp [of, afterChar, ih]

theorem afterAny_of (p : List Char → Bool) (cs : List Char) :
    afterAny (of p cs) = of (someSuffix p) cs := by
  induction cs with
  | nil => simp [of, afterAny, someSuffix, whole]
  | cons c cs ih => simp [of, afterAny, someSuffix, ih]

theorem afterSlash_of (p : List Char → Bool) (cs : List Char) :
    afterSlash cs (of p cs) = of (someComponent p) cs := by
  induction cs with
  | nil => rfl
  | cons c cs ih => simp [of, afterSlash, someComponent, ih]

theorem zipWith_of (f : Bool → Bool → Bool) (p q : List Char → Bool) (cs : List Char) :
    List.zipWith f (of p cs) (of q cs) = of (fun cs => f (p cs) (q cs)) cs := by
  induction cs with
  | nil => rfl
  | cons c cs ih => simp [of, ih]

theorem map_of (f : Bool → Bool) (p : List Char → Bool) (cs : List Char) :
    (of p cs).map f = of (fun cs => f (p cs)) cs := by
  induction cs with
  | nil => rfl
  | cons c cs ih => simp [of, ih]

end Row

/-- For each end of the text, whether the tokens match it. -/
def matchRow (cs : List Char) : List Token → Row
  | [] => Row.of List.isEmpty cs
  | .anySequence :: ts => (matchRow cs ts).afterAny
  | .anyComponents :: ts =>
    let row := matchRow cs ts
    let last := row.getLastD false
    (List.zipWith or row (Row.afterSlash cs row)).map fun b => b || last
  | t :: ts => Row.afterChar (fun c => t.matchesChar c) cs (matchRow cs ts)

theorem matchRow_eq (cs : List Char) (ts : List Token) :
    matchRow cs ts = Row.of (matchesTokens ts) cs := by
  induction ts with
  | nil => exact congrArg (Row.of · cs) (funext fun _ => by simp [matchesTokens])
  | cons t ts ih =>
    cases t with
    | anySequence =>
      rw [matchRow, ih, Row.afterAny_of]
      exact congrArg (Row.of · cs) (funext fun _ => by simp [matchesTokens])
    | anyComponents =>
      rw [matchRow, ih, Row.getLastD_of, Row.afterSlash_of, Row.zipWith_of, Row.map_of]
      exact congrArg (Row.of · cs) (funext fun _ => by simp [matchesTokens])
    | _ =>
      simp only [matchRow, ih, Row.afterChar_of]
      exact congrArg (Row.of · cs) (funext fun ds => by cases ds <;> simp [matchesTokens])

/-- Whether a pattern matches a whole name. -/
def accepts (p : Pattern) (name : String) : Bool :=
  (matchRow name.toList p.tokens).whole

theorem accepts_eq_matchesTokens (p : Pattern) (name : String) :
    p.accepts name = matchesTokens p.tokens name.toList := by
  rw [accepts, matchRow_eq, Row.whole_of]

end CallSchema.Pattern
