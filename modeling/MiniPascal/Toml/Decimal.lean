/-!
# Decimal fractions

A number with a fraction or an exponent.  It is kept as a whole number times a power of ten, which is
enough to tell whether a double can hold it.
-/

namespace MiniPascal.Toml

/-- A decimal fraction: `digits` times ten to the power of `scale`, whatever its sign.  The text is
without underscores. -/
structure Decimal where
  text : String
  digits : Nat
  scale : Int

namespace Decimal

/-- The least number that is rounded to a power of two which no double has: half a unit in the last place
above the largest of them. -/
def limit : Nat := Nat.pow 2 1024 - Nat.pow 2 970

/-- Whether a number is at least the limit.  Where the number of places decides, no power is computed. -/
def isTooLarge (d : Decimal) : Bool :=
  let places : Int := (Nat.toDigits 10 d.digits).length + d.scale
  if d.digits == 0 || places < 309 then false
  else if 309 < places then true
  else limit * Nat.pow 10 (-d.scale).toNat ≤ d.digits * Nat.pow 10 d.scale.toNat

end Decimal

end MiniPascal.Toml
