import ByteLift.Decimal.Binary

/-!
# Shortest decimals

The shortest decimal of a binary number has the fewest digits among those nearer to it than to any
other number of its format, and of these is the nearest. It is found on decimal grids, from coarse
to fine: the first grid with a point close enough wins, and a tie goes to the larger point. All
comparisons are between whole numbers over a common denominator.
-/

namespace ByteLift.Decimal

/-- The decimals that read back as one binary number: those between `lower / den` and
`upper / den`, around `centre / den`, the ends included if `closed`. -/
structure Interval where
  den : Nat
  lower : Nat
  centre : Nat
  upper : Nat
  closed : Bool

/-- The decimals that read back as `significand * 2 ^ exponent`. They reach half way to the
neighbours; a half-way point goes to the even significand. -/
def Interval.around (significand : Nat) (exponent : Int) (powerOfTwo : Bool) : Interval :=
  let scale := Nat.pow 2 (exponent - 2).toNat
  { den := Nat.pow 2 (2 - exponent).toNat
    lower := (4 * significand - if powerOfTwo then 1 else 2) * scale
    centre := 4 * significand * scale
    upper := (4 * significand + 2) * scale
    closed := significand % 2 = 0 }

/-- The point of the grid of step `10 ^ k` that is nearest to the centre among those inside the
interval, as a multiple of the step. -/
def Interval.pointOn? (i : Interval) (k : Int) : Option Nat :=
  let step := i.den * Nat.pow 10 k.toNat
  let scale := Nat.pow 10 (-k).toNat
  let below := i.centre * scale / step
  let above := below + 1
  let belowFits :=
    i.lower * scale < below * step || (i.closed && i.lower * scale = below * step)
  let aboveFits :=
    above * step < i.upper * scale || (i.closed && above * step = i.upper * scale)
  if belowFits && aboveFits then
    if i.centre * scale - below * step < above * step - i.centre * scale then some below
    else some above
  else if belowFits then some below
  else if aboveFits then some above
  else none

/-- The first point inside the interval on the grids of step `10 ^ k`, `10 ^ (k - 1)`, …, of which
`count` are tried, with the exponent of its grid. -/
def Interval.search (i : Interval) (k : Int) : Nat → Nat × Int
  | 0 => (0, 0)
  | count + 1 =>
    match i.pointOn? k with
    | some point => (point, k)
    | none => i.search (k - 1) count

/-- The shortest decimal `c * 10 ^ k` of a binary number, as the pair of `c` and `k`. The grids
tried reach from above the largest number of the 64-bit format to below its smallest one. -/
def shortest (significand : Nat) (exponent : Int) (powerOfTwo : Bool) : Nat × Int :=
  if significand = 0 then (0, 0)
  else (Interval.around significand exponent powerOfTwo).search 310 660

end ByteLift.Decimal
