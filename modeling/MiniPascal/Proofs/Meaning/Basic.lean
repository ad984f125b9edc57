import MiniPascal.Tree.Type

/-!
# Words, storage and events

What the meaning of source programs and that of intermediate code have in common. A word has 32 bits. A
variable holds words in numbered cells: an integer in one, an array in as many as it has elements. What
a program does to its surroundings is a list of events.
-/

namespace MiniPascal

/-- The number of words that a variable of a type takes. -/
def VarType.cells : VarType → Nat
  | .void => 0
  | .integer => 1
  | .array lower upper elem => (upper.toInt - lower.toInt + 1).toNat * elem.cells

/-- The size of a type is exact: it does not wrap. -/
def VarType.Fits (type : VarType) : Prop := type.size.toInt = 4 * type.cells

instance (type : VarType) : Decidable type.Fits := inferInstanceAs (Decidable (_ = _))

namespace Meaning

/-- A word, the integer of the language. -/
abbrev Word := BitVec 32

/-- The word of an integer, modulo `2 ^ 32`. -/
def wrap (value : Int) : Word := BitVec.ofInt 32 value

/-- The word of a literal. -/
def literal (value : Int64) : Word := wrap value.toInt

/-- The cells of a variable. -/
abbrev Content := Nat → Word

/-- One cell is changed. -/
def setCell (c : Content) (k : Nat) (w : Word) : Content := fun j => if j = k then w else c j

/-- The first `n` cells are copied. -/
def copyCells (n : Nat) (source target : Content) : Content :=
  fun j => if j < n then source j else target j

/-- What is given to a formatted output. -/
inductive Datum where
  | word (w : Word)
  | text (s : String)
  deriving DecidableEq

/-- An exchange with the surroundings. An input comes to nothing where all input has been read. -/
inductive Event where
  | print (format : String) (data : List Datum)
  | scan (format : String) (got : Option Word)
  deriving DecidableEq

end Meaning

end MiniPascal
