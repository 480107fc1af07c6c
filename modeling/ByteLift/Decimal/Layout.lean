import ByteLift.Decimal.Shortest

/-!
# Decimal notation

How the digits of a number are laid out: where the point goes, when a power of ten is split off, and
whether a whole number keeps a zero behind the point. A place that prints numbers chooses a
`Layout`.
-/

namespace ByteLift.Decimal

/-- The decisions of a decimal notation. -/
structure Layout where
  /-- Numbers whose point stands at least this far right of the first digit's left side, and at
  most as far as `last`, are written without an exponent. -/
  first : Option Int := none
  /-- See `first`. -/
  last : Option Int := none
  /-- Whole numbers written without an exponent end in `.0`. -/
  pointZero : Bool

/-- Whether the point at this position is written without an exponent. -/
def Layout.positional (l : Layout) (point : Int) : Bool :=
  l.first.all (· ≤ point) && l.last.all (point ≤ ·)

/-- The sign that stands before a number's digits. -/
def sign (negative : Bool) : String := if negative then "-" else ""

/-- Writes `c * 10 ^ k`. The point stands `point` places right of the first digit's left side. -/
def Layout.digits (l : Layout) (c : Nat) (k : Int) : String :=
  let ds := Nat.toDigits 10 c
  let point : Int := ds.length + k
  let text :=
    if l.positional point then
      if point ≤ 0 then '0' :: '.' :: List.replicate (-point).toNat '0' ++ ds
      else if point < ds.length then
        ds.take point.toNat ++ '.' :: ds.drop point.toNat
      else
        ds ++ List.replicate k.toNat '0' ++ if l.pointZero then ['.', '0'] else []
    else
      let mantissa := match ds with
        | d :: e :: es => d :: '.' :: e :: es
        | ds => ds
      mantissa ++ 'e' :: (toString (point - 1)).toList
  String.ofList text

/-- Writes a binary number by its shortest decimal. -/
def Layout.render (l : Layout) (f : BinaryFormat) (bits : Nat) : String :=
  match f.value bits with
  | .nan => "nan"
  | .infinite negative => sign negative ++ "inf"
  | .finite negative significand exponent powerOfTwo =>
    let (c, k) := shortest significand exponent powerOfTwo
    sign negative ++ l.digits c k

end ByteLift.Decimal
