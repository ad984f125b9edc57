/-!
# Quoted data

String data is handed to the assembler as it stands between the quotes.  So everything but printable
ASCII is written as an octal escape of three digits, which no following digit can extend.
-/

namespace MiniPascal.Qbe

def octalDigit (n : Nat) : Char := Char.ofNat (48 + n % 8)

def quoteByte (b : UInt8) : List Char :=
  if b = 0x22 ∨ b = 0x5C then ['\\', Char.ofNat b.toNat]
  else if 0x20 ≤ b ∧ b < 0x7F then [Char.ofNat b.toNat]
  else ['\\', octalDigit (b.toNat / 64), octalDigit (b.toNat / 8), octalDigit b.toNat]

def quoteBytes (bs : List UInt8) : List Char := '"' :: (bs.flatMap quoteByte ++ ['"'])

/-- The UTF-8 bytes of a text between quotes. -/
def quote (s : String) : String := String.ofList (quoteBytes s.toUTF8.toList)

end MiniPascal.Qbe
