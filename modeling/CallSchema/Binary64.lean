/-! # Binary floating point numbers

A double is kept as its 64 bits, so that equality of values is decidable and every operation is
arithmetic on natural numbers. `Binary64.ofRatio` rounds a quotient of naturals to the nearest
double, and products and quotients of doubles are rounded through it.
-/

namespace CallSchema

/-- An IEEE 754 double, given by its encoding. -/
structure Binary64 where
  bits : UInt64
deriving DecidableEq, Repr, Inhabited

namespace Binary64

/-- The value of the sign in the encoding. -/
def signBit : Nat :=
  Nat.pow 2 63

/-- The value of the least exponent in the encoding. -/
def exponentUnit : Nat :=
  Nat.pow 2 52

/-- The encoding without its sign. -/
def magnitude (x : Binary64) : Nat :=
  x.bits.toNat % signBit

def isNegative (x : Binary64) : Bool :=
  signBit ≤ x.bits.toNat

/-- The magnitude of the two infinities; the NaNs lie above it. -/
def infinite : Nat :=
  0x7FF * exponentUnit

def isFinite (x : Binary64) : Bool :=
  x.magnitude < infinite

def isZero (x : Binary64) : Bool :=
  x.magnitude == 0

/-- Numeric equality: the two zeros are equal, and a NaN equals nothing. -/
def numEq (x y : Binary64) : Bool :=
  (x == y && decide (x.magnitude ≤ infinite)) || (x.isZero && y.isZero)

def ofMagnitude (negative : Bool) (m : Nat) : Binary64 :=
  ⟨UInt64.ofNat ((if negative then signBit else 0) + m)⟩

/-- A finite magnitude is `significand * 2 ^ (scale - 1074)`. -/
def scale (m : Nat) : Nat :=
  m / exponentUnit - 1

def significand (m : Nat) : Nat :=
  if m < exponentUnit then m else exponentUnit + m % exponentUnit

/-- The quotient rounded to the nearest natural number, a half to the even one. -/
def roundQuotient (num den : Nat) : Nat :=
  let q := num / den
  let twice := 2 * (num % den)
  if twice < den then q
  else if den < twice then q + 1
  else if q % 2 = 0 then q else q + 1

/-- The binary logarithm of a positive quotient, rounded down. -/
def ratioLog (num den : Nat) : Int :=
  let guess : Int := (Nat.log2 num : Int) - Nat.log2 den
  if num * Nat.pow 2 (-guess).toNat < den * Nat.pow 2 guess.toNat then guess - 1 else guess

/-- The magnitude nearest to `num / den`; what is too large becomes infinite. -/
def ratioMagnitude (num den : Nat) : Nat :=
  if num = 0 then 0
  else
    let lift := (ratioLog num den + 1022).toNat
    let m := lift * exponentUnit + roundQuotient (num * Nat.pow 2 1074) (den * Nat.pow 2 lift)
    min m infinite

def ofRatio (negative : Bool) (num den : Nat) : Binary64 :=
  ofMagnitude negative (ratioMagnitude num den)

def ofNat (n : Nat) : Binary64 :=
  ofRatio false n 1

def ofInt (i : Int) : Binary64 :=
  ofRatio (decide (i < 0)) i.natAbs 1

def neg (x : Binary64) : Binary64 :=
  ofMagnitude (!x.isNegative) x.magnitude

/-- A finite magnitude as a natural number of units of `2 ^ -1074`. -/
def units (m : Nat) : Nat :=
  significand m * Nat.pow 2 (scale m)

/-- The rounded product of two finite magnitudes. -/
def mulMagnitude (a b : Nat) : Nat :=
  ratioMagnitude (units a * units b) (Nat.pow 2 2148)

/-- The rounded quotient of two finite magnitudes. -/
def divMagnitude (a b : Nat) : Nat :=
  ratioMagnitude (units a) (units b)

end Binary64

end CallSchema
