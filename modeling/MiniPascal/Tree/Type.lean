/-!
# Types of variables

A variable is an integer or an array with literal bounds; `void` is the type of what has no value,
and stands as the result type of a procedure.  Sizes are 64-bit quantities and wrap.
-/

namespace MiniPascal

/-- The type of a variable, or of the result of a routine. -/
inductive VarType where
  | void
  | integer
  | array (lower upper : Int64) (elem : VarType)
  deriving DecidableEq

namespace VarType

def isArray : VarType → Bool
  | array .. => true
  | _ => false

/-- The number of elements of an array; anything else counts as one. -/
def length : VarType → Int64
  | array lower upper _ => upper - lower + 1
  | _ => 1

/-- The storage size in bytes.  An integer takes four; what has no value takes none. -/
def size : VarType → Int64
  | void => 0
  | integer => 4
  | array lower upper elem => (upper - lower + 1) * elem.size

def format : VarType → String
  | void => "void"
  | integer => "integer"
  | array lower upper elem =>
    "(array " ++ toString lower ++ " " ++ toString upper ++ " " ++ elem.format ++ ")"

end VarType

end MiniPascal
