import CallSchema.Json.Number

/-! # Reading JSON text

The reader takes a strict JSON text to its value, up to a bound on nesting. Numbers must be finite
and surrogates paired.
-/

namespace CallSchema.Json

def isBlank (c : Char) : Bool :=
  c = ' ' || c = '\n' || c = '\t' || c = '\r'

def dropBlanks (cs : List Char) : List Char :=
  cs.dropWhile isBlank

def hexValue? (c : Char) : Option Nat :=
  if '0' ≤ c ∧ c ≤ '9' then some (c.toNat - '0'.toNat)
  else if 'a' ≤ c ∧ c ≤ 'f' then some (c.toNat - 'a'.toNat + 10)
  else if 'A' ≤ c ∧ c ≤ 'F' then some (c.toNat - 'A'.toNat + 10)
  else none

def unit? (a b c d : Char) : Option Nat := do
  let a ← hexValue? a
  let b ← hexValue? b
  let c ← hexValue? c
  let d ← hexValue? d
  some (((a * 16 + b) * 16 + c) * 16 + d)

def isHighSurrogate (n : Nat) : Bool :=
  0xD800 ≤ n && n < 0xDC00

def isLowSurrogate (n : Nat) : Bool :=
  0xDC00 ≤ n && n < 0xE000

def surrogatePair (high low : Nat) : Char :=
  Char.ofNat (0x10000 + (high - 0xD800) * 0x400 + (low - 0xDC00))

/-- What a one-letter escape stands for. -/
def escaped? (c : Char) : Option Char :=
  if c = '"' ∨ c = '\\' ∨ c = '/' then some c
  else if c = 'n' then some '\n'
  else if c = 'r' then some '\r'
  else if c = 't' then some '\t'
  else if c = 'b' then some '\x08'
  else if c = 'f' then some '\x0c'
  else none

/-- The rest of a string after its opening quote; `done` is what was read, last character first. -/
def stringBody? (done : List Char) : List Char → Option (String × List Char)
  | [] => none
  | '"' :: rest => some (String.ofList done.reverse, rest)
  | '\\' :: 'u' :: a :: b :: c :: d :: rest =>
    match unit? a b c d with
    | none => none
    | some n =>
      if isHighSurrogate n then
        match rest with
        | '\\' :: 'u' :: e :: f :: g :: h :: rest =>
          match unit? e f g h with
          | some m =>
            if isLowSurrogate m then stringBody? (surrogatePair n m :: done) rest else none
          | none => none
        | _ => none
      else if isLowSurrogate n then none
      else stringBody? (Char.ofNat n :: done) rest
  | '\\' :: c :: rest =>
    match escaped? c with
    | some x => stringBody? (x :: done) rest
    | none => none
  | c :: rest => if c.toNat < 0x20 then none else stringBody? (c :: done) rest

def key? (cs : List Char) : Option (String × List Char) :=
  match dropBlanks cs with
  | '"' :: rest => do
    let (k, rest) ← stringBody? [] rest
    match dropBlanks rest with
    | ':' :: rest => some (k, rest)
    | _ => none
  | _ => none

/-- A value without parts, with no blanks in front of it. -/
def scalar? : List Char → Option (Json × List Char)
  | 'n' :: 'u' :: 'l' :: 'l' :: rest => some (.null, rest)
  | 't' :: 'r' :: 'u' :: 'e' :: rest => some (.bool true, rest)
  | 'f' :: 'a' :: 'l' :: 's' :: 'e' :: rest => some (.bool false, rest)
  | '"' :: rest => do
    let (s, rest) ← stringBody? [] rest
    some (.str s, rest)
  | cs => do
    let (n, rest) ← Number.scan? cs
    let v ← n.value?
    some (v, rest)

/-- The items of an array, the first of which must be there. The fuel bounds their number. -/
def items? (item? : List Char → Option (Json × List Char)) : Nat → List Char →
    Option (List Json × List Char)
  | 0, _ => none
  | fuel + 1, cs => do
    let (v, rest) ← item? cs
    match dropBlanks rest with
    | ']' :: rest => some ([v], rest)
    | ',' :: rest => do
      let (vs, rest) ← items? item? fuel rest
      some (v :: vs, rest)
    | _ => none

/-- The members of an object, the first of which must be there. The reader of a value may depend on
its key. -/
def members? (member? : String → List Char → Option (Json × List Char)) : Nat → List Char →
    Option (List (String × Json) × List Char)
  | 0, _ => none
  | fuel + 1, cs => do
    let (k, rest) ← key? cs
    let (v, rest) ← member? k rest
    match dropBlanks rest with
    | '\x7d' :: rest => some ([(k, v)], rest)
    | ',' :: rest => do
      let (ms, rest) ← members? member? fuel rest
      some ((k, v) :: ms, rest)
    | _ => none

/-- An array after its opening bracket. -/
def array? (item? : List Char → Option (Json × List Char)) (fuel : Nat) (cs : List Char) :
    Option (Json × List Char) :=
  match dropBlanks cs with
  | ']' :: rest => some (.arr [], rest)
  | _ => do
    let (vs, rest) ← items? item? fuel cs
    some (.arr vs, rest)

/-- An object after its opening brace. -/
def object? (member? : String → List Char → Option (Json × List Char)) (fuel : Nat)
    (cs : List Char) : Option (Json × List Char) :=
  match dropBlanks cs with
  | '\x7d' :: rest => some (.obj [], rest)
  | _ => do
    let (ms, rest) ← members? member? fuel cs
    some (.obj ms, rest)

/-- The value at the front of a text, nested at most `depth` deep. No container has more parts than
`fuel`, which is the length of the text. -/
def value? (fuel : Nat) : Nat → List Char → Option (Json × List Char)
  | 0, cs => scalar? (dropBlanks cs)
  | depth + 1, cs =>
    match dropBlanks cs with
    | '[' :: rest => array? (value? fuel depth) fuel rest
    | '\x7b' :: rest => object? (fun _ => value? fuel depth) fuel rest
    | rest => scalar? rest

/-- Nothing but blanks may follow a document. -/
def finish : Option (Json × List Char) → Option Json
  | some (v, rest) => if (dropBlanks rest).isEmpty then some v else none
  | none => none

/-- The value of a whole text, nested at most `depth` deep. -/
def parse? (depth : Nat) (text : String) : Option Json :=
  let cs := text.toList
  finish (value? cs.length depth cs)

end CallSchema.Json
