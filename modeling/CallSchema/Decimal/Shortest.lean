import CallSchema.Binary64

/-! # Shortest decimals

The fewest decimal digits that single out a double among all doubles. For one digit, two digits
and so on, the two neighbours of the value on that decimal grid are compared with the interval of
reals that round to the value; the first grid with a hit gives the digits.
-/

namespace CallSchema

/-- The number `digits * 10 ^ exponent`. -/
structure Decimal where
  digits : Nat
  exponent : Int
deriving DecidableEq, Repr

namespace Decimal

/-- Which of two equally near decimals is taken. -/
inductive Tie where
  | up
  | toEven
deriving DecidableEq, Repr

/-- A positive rational number with the interval of reals that round to the same double. All four
numbers are numerators over `den`. -/
structure Target where
  low : Nat
  value : Nat
  high : Nat
  den : Nat
  closed : Bool

/-- The interval reaches halfway to both neighbours; the lower neighbour of a power of two is half
as far away. Quarters of units keep all ends whole. -/
def Target.ofMagnitude (m : Nat) : Target :=
  let s := Binary64.significand m
  let unit := Nat.pow 2 (Binary64.scale m)
  let below := if s = Binary64.exponentUnit ∧ 0 < Binary64.scale m then 1 else 2
  { low := (4 * s - below) * unit
    value := 4 * s * unit
    high := (4 * s + 2) * unit
    den := Nat.pow 2 1076
    closed := s % 2 = 0 }

namespace Target

/-- The target in units of `10 ^ e`. -/
def scaled (t : Target) (e : Int) : Target :=
  let up := Nat.pow 10 (-e).toNat
  { t with
    low := t.low * up
    value := t.value * up
    high := t.high * up
    den := t.den * Nat.pow 10 e.toNat }

/-- Whether the whole number `n` lies in the interval. -/
def holds (t : Target) (n : Nat) : Bool :=
  let v := n * t.den
  if t.closed then t.low ≤ v && v ≤ t.high else t.low < v && v < t.high

/-- The nearer of the two whole neighbours of the value that lie in the interval. -/
def nearest? (tie : Tie) (t : Target) : Option Nat :=
  let n := t.value / t.den
  let twice := 2 * (t.value % t.den)
  match t.holds n, t.holds (n + 1) with
  | false, false => none
  | true, false => some n
  | false, true => some (n + 1)
  | true, true =>
    if twice < t.den then some n
    else if t.den < twice then some (n + 1)
    else match tie with
      | .up => some (n + 1)
      | .toEven => some (if n % 2 = 0 then n else n + 1)

/-- The exponent of the first digit, looked for downwards from `top`. -/
def leading (t : Target) : Nat → Int → Int
  | 0, top => top
  | fuel + 1, top =>
    if t.den * Nat.pow 10 top.toNat ≤ t.value * Nat.pow 10 (-top).toNat then top
    else leading t fuel (top - 1)

/-- The first hit among the next `fuel` grids, each ten times finer than the one before. -/
def search (tie : Tie) (t : Target) : Nat → Int → Decimal
  | 0, e => ⟨(t.scaled e).value / (t.scaled e).den, e⟩
  | fuel + 1, e =>
    match (t.scaled e).nearest? tie with
    | some n => ⟨n, e⟩
    | none => search tie t fuel (e - 1)

end Target

/-- Moves trailing zeros of the digits into the exponent. -/
def trim : Nat → Decimal → Decimal
  | 0, d => d
  | fuel + 1, d =>
    if d.digits % 10 = 0 ∧ d.digits ≠ 0 then trim fuel ⟨d.digits / 10, d.exponent + 1⟩ else d

/-- The shortest decimal that reads back as the positive finite magnitude `m`. Doubles lie between
`10 ^ -324` and `10 ^ 309`, and seventeen digits always suffice. -/
def shortest (tie : Tie) (m : Nat) : Decimal :=
  let t := Target.ofMagnitude m
  ((t.search tie 17 (t.leading 640 309)).trim 17)

end Decimal

end CallSchema
