import CallSchema.Json.Basic

/-! # JSON numbers

A number is first read as its written parts. A whole number that fits 64 bits stays one; any other
number becomes a double: the first digits, as many as fit 64 bits, are rounded to a double, which
is then scaled by a power of ten in one rounded step.
-/

namespace CallSchema.Json

/-- The written parts of a number. The fraction is empty if there is no point. -/
structure Number where
  negative : Bool
  whole : List Char
  fraction : List Char
  exponent : Option Int

namespace Number

def digitValue (c : Char) : Nat :=
  c.toNat - '0'.toNat

def natValue (digits : List Char) : Nat :=
  digits.foldl (fun n c => n * 10 + digitValue c) 0

/-- The digits at the front, which must be there. -/
def digits? (cs : List Char) : Option (List Char × List Char) :=
  match cs.span Char.isDigit with
  | ([], _) => none
  | (ds, rest) => some (ds, rest)

/-- The digits before the point: a zero stands alone. -/
def whole? (cs : List Char) : Option (List Char × List Char) := do
  let (ds, rest) ← digits? cs
  match ds with
  | '0' :: _ :: _ => none
  | _ => some (ds, rest)

def fraction? : List Char → Option (List Char × List Char)
  | '.' :: rest => digits? rest
  | cs => some ([], cs)

def sign : List Char → Bool × List Char
  | '-' :: rest => (true, rest)
  | '+' :: rest => (false, rest)
  | cs => (false, cs)

def exponentDigits? (cs : List Char) : Option (Option Int × List Char) := do
  let (negative, rest) := sign cs
  let (ds, rest) ← digits? rest
  let n : Int := natValue ds
  some (some (if negative then -n else n), rest)

def exponent? : List Char → Option (Option Int × List Char)
  | 'e' :: rest => exponentDigits? rest
  | 'E' :: rest => exponentDigits? rest
  | cs => some (none, cs)

/-- The number at the front of a text. -/
def scan? (cs : List Char) : Option (Number × List Char) := do
  let (negative, cs) := match cs with
    | '-' :: rest => (true, rest)
    | _ => (false, cs)
  let (whole, cs) ← whole? cs
  let (fraction, cs) ← fraction? cs
  let (exponent, cs) ← exponent? cs
  some (⟨negative, whole, fraction, exponent⟩, cs)

def word : Nat :=
  Nat.pow 2 64

/-- The digits that fit a word, and the number of digits left out after the first that does not. -/
def gatherWhole (digits : List Char) : Nat × Nat :=
  digits.foldl (fun (n, dropped) c =>
    if 0 < dropped ∨ word ≤ n * 10 + digitValue c then (n, dropped + 1)
    else (n * 10 + digitValue c, 0)) (0, 0)

/-- Appends digits while the result fits a word, and counts them. -/
def gatherFraction : Nat → List Char → Nat × Nat
  | n, [] => (n, 0)
  | n, c :: rest =>
    if word ≤ n * 10 + digitValue c then (n, 0)
    else
      let (m, places) := gatherFraction (n * 10 + digitValue c) rest
      (m, places + 1)

/-- The largest exponent of a power of ten that is a finite double. -/
def maxPower : Nat :=
  308

def power (e : Nat) : Nat :=
  Binary64.ratioMagnitude (Nat.pow 10 e) 1

/-- Divides a magnitude by a power of ten, in steps that stay within the finite powers. -/
def scaleDown (m e : Nat) : Nat :=
  if e ≤ maxPower then Binary64.divMagnitude m (power e)
  else if m = 0 then 0
  else scaleDown (Binary64.divMagnitude m (power maxPower)) (e - maxPower)
termination_by e
decreasing_by simp_all [maxPower]; omega

/-- Multiplies a magnitude by a power of ten, unless the result is not finite. -/
def scaleUp? (m e : Nat) : Option Nat :=
  if e ≤ maxPower then
    let p := Binary64.mulMagnitude m (power e)
    if p < Binary64.infinite then some p else none
  else if m = 0 then some 0
  else none

/-- The double a number is read as, if it is finite. -/
def toBinary64? (n : Number) : Option Binary64 :=
  let (head, dropped) := gatherWhole n.whole
  let (significand, places) := gatherFraction head n.fraction
  let e : Int := (dropped : Int) - places + n.exponent.getD 0
  let m := Binary64.ratioMagnitude significand 1
  (if 0 ≤ e then scaleUp? m e.toNat else some (scaleDown m (-e).toNat)).map
    (Binary64.ofMagnitude n.negative)

/-- A whole number within 64 bits; a negative zero is none. -/
def toInt? (n : Number) : Option Int :=
  match n.fraction, n.exponent with
  | [], none =>
    let v := natValue n.whole
    if n.negative then
      if 0 < v ∧ v ≤ Nat.pow 2 63 then some (-v) else none
    else if v < word then some v else none
  | _, _ => none

def value? (n : Number) : Option Json :=
  match n.toInt? with
  | some i => some (.int i)
  | none => n.toBinary64?.map .float

end Number

end CallSchema.Json
