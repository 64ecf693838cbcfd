import CallSchema.Json.Reader

/-! # Passing over JSON text

A value that is of no interest is passed over. Only its grammar counts then, whatever its depth,
the size of its numbers and the pairing of its surrogates.
-/

namespace CallSchema.Json

/-- Passes over the rest of a string. -/
def skipString? : List Char → Option (List Char)
  | [] => none
  | '"' :: rest => some rest
  | '\\' :: 'u' :: a :: b :: c :: d :: rest =>
    if (unit? a b c d).isSome then skipString? rest else none
  | '\\' :: c :: rest => if (escaped? c).isSome then skipString? rest else none
  | c :: rest => if c.toNat < 0x20 then none else skipString? rest

def skipKey? (cs : List Char) : Option (List Char) :=
  match dropBlanks cs with
  | '"' :: rest => do
    let rest ← skipString? rest
    match dropBlanks rest with
    | ':' :: rest => some rest
    | _ => none
  | _ => none

def skipScalar? : List Char → Option (List Char)
  | 'n' :: 'u' :: 'l' :: 'l' :: rest => some rest
  | 't' :: 'r' :: 'u' :: 'e' :: rest => some rest
  | 'f' :: 'a' :: 'l' :: 's' :: 'e' :: rest => some rest
  | '"' :: rest => skipString? rest
  | cs => (Number.scan? cs).map Prod.snd

/-- A container that is open while a value is passed over. -/
inductive Bracket where
  | square
  | curly
deriving DecidableEq, Repr

mutual

/-- Passes over the value at the front of a text inside the open containers, and over the rest of
these. -/
def skip? : Nat → List Bracket → List Char → Option (List Char)
  | 0, _, _ => none
  | fuel + 1, frames, cs =>
    match dropBlanks cs with
    | '[' :: rest =>
      match dropBlanks rest with
      | ']' :: rest => skipRest? fuel frames rest
      | _ => skip? fuel (.square :: frames) rest
    | '\x7b' :: rest =>
      match dropBlanks rest with
      | '\x7d' :: rest => skipRest? fuel frames rest
      | _ =>
        match skipKey? rest with
        | some rest => skip? fuel (.curly :: frames) rest
        | none => none
    | rest =>
      match skipScalar? rest with
      | some rest => skipRest? fuel frames rest
      | none => none

/-- Passes over what follows a value inside the open containers. -/
def skipRest? : Nat → List Bracket → List Char → Option (List Char)
  | _, [], cs => some cs
  | 0, _, _ => none
  | fuel + 1, .square :: frames, cs =>
    match dropBlanks cs with
    | ']' :: rest => skipRest? fuel frames rest
    | ',' :: rest => skip? fuel (.square :: frames) rest
    | _ => none
  | fuel + 1, .curly :: frames, cs =>
    match dropBlanks cs with
    | '\x7d' :: rest => skipRest? fuel frames rest
    | ',' :: rest =>
      match skipKey? rest with
      | some rest => skip? fuel (.curly :: frames) rest
      | none => none
    | _ => none

end

/-- The value of a whole text. If it is an object, the values of its own members that are not kept
are passed over and read as `null`. -/
def parseKeeping? (kept : String → Bool) (depth : Nat) (text : String) : Option Json :=
  let cs := text.toList
  let fuel := cs.length
  match depth, dropBlanks cs with
  | inner + 1, '\x7b' :: rest =>
    let member? (k : String) (cs : List Char) : Option (Json × List Char) :=
      if kept k then value? fuel inner cs
      else (skip? (2 * fuel + 1) [] cs).map fun rest => (.null, rest)
    finish (object? member? fuel rest)
  | _, _ => finish (value? fuel depth cs)

end CallSchema.Json
