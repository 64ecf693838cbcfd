/-! # Shell patterns

Patterns with `?`, `*`, `**` and character sets. A pattern is compiled from left to right, and the
position of the first fault counts characters from zero.
-/

namespace CallSchema

/-- An entry of a character set. -/
inductive CharClass where
  | single (c : Char)
  | range (low high : Char)
deriving DecidableEq, Repr

def CharClass.holds (c : Char) : CharClass → Bool
  | .single d => c == d
  | .range low high => decide (low ≤ c) && decide (c ≤ high)

namespace Pattern

inductive Token where
  | exactly (c : Char)
  | anyChar
  | anySequence
  /-- Any number of path components. -/
  | anyComponents
  | within (set : List CharClass)
  | outside (set : List CharClass)
deriving DecidableEq, Repr

inductive Problem where
  | tooManyStars
  | brokenComponent
  | brokenSet
deriving DecidableEq, Repr

def Problem.text : Problem → String
  | .tooManyStars => "wildcards are either regular `*` or recursive `**`"
  | .brokenComponent => "recursive wildcards must form a single path component"
  | .brokenSet => "invalid range pattern"

/-- A fault of a pattern and its place. -/
structure SyntaxError where
  position : Nat
  problem : Problem
deriving DecidableEq, Repr

/-- The entries between the brackets of a set. -/
def charClasses : List Char → List CharClass
  | a :: '-' :: b :: rest => .range a b :: charClasses rest
  | c :: rest => .single c :: charClasses rest
  | [] => []

/-- The text up to a closing bracket, which is never the first character, and what follows. -/
def setBody? : List Char → Option (List Char × List Char)
  | [] => none
  | c :: rest =>
    match rest.span (· ≠ ']') with
    | (body, _ :: after) => some (c :: body, after)
    | (_, []) => none

/-- A set after its opening bracket. -/
def set? : List Char → Option (Token × List Char)
  | '!' :: rest => (setBody? rest).map fun (body, after) => (.outside (charClasses body), after)
  | rest => (setBody? rest).map fun (body, after) => (.within (charClasses body), after)

/-- Adds a recursive token, unless it would follow another one that is not the first token. -/
def pushComponents (tokens : List Token) : List Token :=
  if 2 ≤ tokens.length ∧ tokens.getLast? = some .anyComponents then tokens
  else tokens ++ [.anyComponents]

/-- Compiles the rest of a pattern after `position` characters, the last of which is `previous`.
The fuel bounds the number of characters left. -/
def compileFrom : Nat → Nat → Option Char → List Token → List Char → Except SyntaxError (List Token)
  | 0, _, _, tokens, _ => .ok tokens
  | _, _, _, tokens, [] => .ok tokens
  | fuel + 1, position, previous, tokens, c :: rest =>
    if c = '?' then compileFrom fuel (position + 1) (some c) (tokens ++ [.anyChar]) rest
    else if c = '*' then
      let (more, after) := rest.span (· = '*')
      match more.length with
      | 0 => compileFrom fuel (position + 1) (some c) (tokens ++ [.anySequence]) rest
      | 1 =>
        if previous = none ∨ previous = some '/' then
          match after with
          | [] => .ok (pushComponents tokens)
          | '/' :: after => compileFrom fuel (position + 3) (some '/') (pushComponents tokens) after
          | _ => .error ⟨position + 2, .brokenComponent⟩
        else .error ⟨position - 1, .brokenComponent⟩
      | _ => .error ⟨position + 2, .tooManyStars⟩
    else if c = '[' then
      match set? rest with
      | some (token, after) =>
        compileFrom fuel (position + 1 + (rest.length - after.length)) (some ']')
          (tokens ++ [token]) after
      | none => .error ⟨position, .brokenSet⟩
    else compileFrom fuel (position + 1) (some c) (tokens ++ [.exactly c]) rest

end Pattern

/-- A compiled pattern. -/
structure Pattern where
  tokens : List Pattern.Token
deriving DecidableEq, Repr

namespace Pattern

def compile (text : String) : Except SyntaxError Pattern :=
  (compileFrom text.toList.length 0 none [] text.toList).map Pattern.mk

end Pattern

end CallSchema
