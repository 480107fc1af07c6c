/-!
# Binary floating-point numbers

Floating-point constants are kept as their bits. This module reads a bit pattern: a sign, a biased
exponent and a fraction become a whole significand times a power of two, and the patterns with the
largest exponent become infinities and not-a-number.
-/

namespace ByteLift.Decimal

/-- The widths of the two number fields of a binary floating-point format. -/
structure BinaryFormat where
  fractionBits : Nat
  exponentBits : Nat

/-- The 32-bit format of `float`. -/
def BinaryFormat.single : BinaryFormat := ⟨23, 8⟩

/-- The 64-bit format of `double`. -/
def BinaryFormat.double : BinaryFormat := ⟨52, 11⟩

/-- What a bit pattern stands for. -/
inductive BinaryValue
  | nan
  | infinite (negative : Bool)
  /-- The number `significand * 2 ^ exponent`. `powerOfTwo` says that the next smaller number of
  the format is only half as far away as the next larger one. -/
  | finite (negative : Bool) (significand : Nat) (exponent : Int) (powerOfTwo : Bool)

/-- Reads a bit pattern. -/
def BinaryFormat.value (f : BinaryFormat) (bits : Nat) : BinaryValue :=
  let fraction := bits % Nat.pow 2 f.fractionBits
  let biased := bits / Nat.pow 2 f.fractionBits % Nat.pow 2 f.exponentBits
  let negative := bits / Nat.pow 2 (f.fractionBits + f.exponentBits) % 2 = 1
  let bias : Int := Int.pow 2 (f.exponentBits - 1) - 1 + f.fractionBits
  if biased = Nat.pow 2 f.exponentBits - 1 then
    if fraction = 0 then .infinite negative else .nan
  else if biased = 0 then .finite negative fraction (1 - bias) false
  else .finite negative (Nat.pow 2 f.fractionBits + fraction) (biased - bias)
    (fraction = 0 ∧ 1 < biased)

end ByteLift.Decimal
