import CallSchema.Decimal.Style
import CallSchema.Json.Basic

/-! # JSON text

The compact text of a value, and the text with one member or item to a line.
-/

namespace CallSchema.Json

/-- Doubles in JSON text: positional from `0.00001` to below `10 ^ 16`, else as in `1e+16`. -/
def decimals : Decimal.Style :=
  { least := -5, bound := 16, signed := true, tie := .toEven }

def hexDigit (n : Nat) : Char :=
  if n < 10 then Char.ofNat ('0'.toNat + n) else Char.ofNat ('a'.toNat + (n - 10))

/-- Quotes, backslashes and control characters are escaped, all else stands for itself. -/
def escapeChar (c : Char) : List Char :=
  if c = '"' then ['\\', '"']
  else if c = '\\' then ['\\', '\\']
  else if c = '\n' then ['\\', 'n']
  else if c = '\r' then ['\\', 'r']
  else if c = '\t' then ['\\', 't']
  else if c = '\x08' then ['\\', 'b']
  else if c = '\x0c' then ['\\', 'f']
  else if c.toNat < 0x20 then
    ['\\', 'u', '0', '0', hexDigit (c.toNat / 16), hexDigit (c.toNat % 16)]
  else [c]

def quote (s : String) : List Char :=
  '"' :: (s.toList.flatMap escapeChar ++ ['"'])

def intChars (i : Int) : List Char :=
  (if i < 0 then ['-'] else []) ++ Nat.toDigits 10 i.natAbs

def floatChars (x : Binary64) : List Char :=
  if x.isFinite then (decimals.write x).toList else ['n', 'u', 'l', 'l']

def boolChars : Bool → List Char
  | true => ['t', 'r', 'u', 'e']
  | false => ['f', 'a', 'l', 's', 'e']

mutual

/-- The compact text of a value. -/
def chars : Json → List Char
  | .null => ['n', 'u', 'l', 'l']
  | .bool b => boolChars b
  | .int i => intChars i
  | .float x => floatChars x
  | .str s => quote s
  | .arr [] => ['[', ']']
  | .arr (v :: vs) => '[' :: (chars v ++ tailChars vs)
  | .obj [] => ['\x7b', '\x7d']
  | .obj ((k, v) :: ms) => '\x7b' :: (quote k ++ ':' :: (chars v ++ memberChars ms))

/-- The further items of an array and its closing bracket. -/
def tailChars : List Json → List Char
  | [] => [']']
  | v :: vs => ',' :: (chars v ++ tailChars vs)

/-- The further members of an object and its closing brace. -/
def memberChars : List (String × Json) → List Char
  | [] => ['\x7d']
  | (k, v) :: ms => ',' :: (quote k ++ ':' :: (chars v ++ memberChars ms))

end

def compact (v : Json) : String :=
  String.ofList v.chars

/-- A new line at the given depth. -/
def breakLine (depth : Nat) : List Char :=
  '\n' :: List.replicate (2 * depth) ' '

mutual

/-- The text with one item or member to a line, two blanks deeper than its container. -/
def prettyChars (depth : Nat) : Json → List Char
  | .null => ['n', 'u', 'l', 'l']
  | .bool b => boolChars b
  | .int i => intChars i
  | .float x => floatChars x
  | .str s => quote s
  | .arr [] => ['[', ']']
  | .arr (v :: vs) =>
    '[' :: (breakLine (depth + 1) ++ prettyChars (depth + 1) v ++ prettyTail depth vs)
  | .obj [] => ['\x7b', '\x7d']
  | .obj ((k, v) :: ms) =>
    '\x7b' :: (breakLine (depth + 1) ++ quote k ++ ':' :: ' ' ::
      (prettyChars (depth + 1) v ++ prettyMembers depth ms))

def prettyTail (depth : Nat) : List Json → List Char
  | [] => breakLine depth ++ [']']
  | v :: vs => ',' :: (breakLine (depth + 1) ++ prettyChars (depth + 1) v ++ prettyTail depth vs)

def prettyMembers (depth : Nat) : List (String × Json) → List Char
  | [] => breakLine depth ++ ['\x7d']
  | (k, v) :: ms =>
    ',' :: (breakLine (depth + 1) ++ quote k ++ ':' :: ' ' ::
      (prettyChars (depth + 1) v ++ prettyMembers depth ms))

end

def pretty (v : Json) : String :=
  String.ofList (v.prettyChars 0)

end CallSchema.Json
