/-!
# Integer constants

A constant is written in decimal, or in hexadecimal where that form is much more regular: where it
repeats few digits and the decimal form does not.
-/

namespace MiniPascal.Llvm

def hexDigit (n : Nat) : Char :=
  if n % 16 < 10 then Char.ofNat (48 + n % 16) else Char.ofNat (55 + n % 16)

/-- The number of different characters of a list. -/
def distinctCount (cs : List Char) : Nat := cs.eraseDups.length

/-- How many different digits a regular hexadecimal form of a given length may have. -/
def regularLimit (length : Nat) : Nat :=
  if length ≤ 6 then 2 else if length ≤ 10 then 3 else 4

/-- Whether `a / b` is at least `c / d + 1 / 5`.  The quotients are taken in binary floating point,
where the sums of 1/10 and 2/5 with 1/5 come out above 3/10 and 3/5. -/
def exceedsByFifth (a b c d : Nat) : Bool :=
  let left := 5 * a * d
  let right := 5 * c * b + b * d
  right < left || (left == right && c * 10 != d && c * 5 != 2 * d)

/-- Whether a constant is written in hexadecimal. -/
def prefersHex (n : Nat) : Bool :=
  let hex := Nat.toDigits 16 n
  let decimal := Nat.toDigits 10 n
  4096 ≤ n && distinctCount hex ≤ regularLimit hex.length &&
    exceedsByFifth (distinctCount decimal) (min decimal.length 10) (distinctCount hex) hex.length

def numeral (value : Int64) : String :=
  let n := value.toInt
  if 0 ≤ n ∧ prefersHex n.toNat then
    "u0x" ++ String.ofList ((Nat.toDigits 16 n.toNat).map Char.toUpper)
  else
    toString n

end MiniPascal.Llvm
