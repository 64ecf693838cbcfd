import CallSchema.Decimal.Shortest

/-! # Written decimals

How the shortest digits of a double are laid out as text. A style says which exponents are
written positionally and how an exponent looks; every text shows that it is a fraction.
-/

namespace CallSchema.Decimal

/-- The decisions of one way of writing doubles. -/
structure Style where
  /-- The least exponent of a first digit that is written positionally. -/
  least : Int
  /-- The least exponent above it that is not. -/
  bound : Int
  /-- Whether a positive exponent carries a sign. -/
  signed : Bool
  tie : Tie

namespace Style

/-- The digits with a point after the first `n`, filled up with zeros. -/
def positional (digits : List Char) (n : Int) : List Char :=
  if n ≤ 0 then
    '0' :: '.' :: (List.replicate (-n).toNat '0' ++ digits)
  else if digits.length ≤ n.toNat then
    digits ++ List.replicate (n.toNat - digits.length) '0' ++ ['.', '0']
  else
    digits.take n.toNat ++ '.' :: digits.drop n.toNat

def scientific (signed : Bool) (digits : List Char) (e : Int) : List Char :=
  let head := match digits with
    | [] => []
    | [d] => [d]
    | d :: rest => d :: '.' :: rest
  let sign := if e < 0 then ['-'] else if signed then ['+'] else []
  head ++ 'e' :: (sign ++ Nat.toDigits 10 e.natAbs)

def magnitude (style : Style) (m : Nat) : List Char :=
  if m = 0 then ['0', '.', '0']
  else
    let d := shortest style.tie m
    let digits := Nat.toDigits 10 d.digits
    let first := d.exponent + digits.length - 1
    if style.least ≤ first ∧ first < style.bound then positional digits (first + 1)
    else scientific style.signed digits first

def write (style : Style) (x : Binary64) : String :=
  if x.isFinite then
    String.ofList ((if x.isNegative then ['-'] else []) ++ style.magnitude x.magnitude)
  else if Binary64.infinite < x.magnitude then "NaN"
  else if x.isNegative then "-inf" else "inf"

end Style

/-- Doubles in messages: positional from `0.0001` to below `10 ^ 16`, else as in `1e-5`. -/
def plain : Style :=
  { least := -4, bound := 16, signed := false, tie := .up }

end CallSchema.Decimal
