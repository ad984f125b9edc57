import MiniPascal.Llvm.Numeral

/-!
# Identifiers

Data, functions, parameters and blocks are known by their names.  One whose name is empty is known by a
number instead.  A name that could be taken for such a number is written in quotes, and so is one with
unusual characters.
-/

namespace MiniPascal.Llvm

/-- A name, and the number that stands for it if it is empty. -/
structure Ident where
  name : String
  number : Nat := 0
  deriving DecidableEq

/-! ## Numbering -/

/-- How many names are empty. -/
def unnamed (names : List String) : Nat := names.countP String.isEmpty

/-- Makes something of each element, with numbers from `n` on for the ones whose names are empty. -/
def numbered {α β : Type} (name : α → String) (make : Ident → α → β) (n : Nat) : List α → List β
  | [] => []
  | a :: as =>
    make ⟨name a, n⟩ a :: numbered name make (if (name a).isEmpty then n + 1 else n) as

/-! ## Text -/

/-- Bytes with everything but printable ASCII, and quotes and backslashes, in hexadecimal. -/
def escapeBytes (bs : List UInt8) : String :=
  String.ofList (bs.flatMap fun b =>
    if 0x20 ≤ b ∧ b ≤ 0x7E ∧ b ≠ 0x22 ∧ b ≠ 0x5C then [Char.ofNat b.toNat]
    else ['\\', hexDigit (b.toNat / 16), hexDigit b.toNat])

/-- Whether a character may stand in a name without quotes. -/
def isPlain (c : Char) : Bool := c.isAlphanum || "$-._".contains c

/-- Whether a name could be taken for a number: it spells one of 64 bits. -/
def isNumber (name : String) : Bool :=
  name.all Char.isDigit && (name.toList.foldl (fun n d => n * 10 + (d.toNat - 48)) 0) < UInt64.size

/-- A name, in quotes if it has unusual characters or could be taken for a number. -/
def nameText (name : String) : String :=
  if name.all isPlain && !isNumber name then name
  else "\"" ++ escapeBytes name.toUTF8.toList ++ "\""

/-- An identifier without the mark of its sort. -/
def Ident.text (i : Ident) : String :=
  if i.name.isEmpty then toString i.number else nameText i.name

end MiniPascal.Llvm
