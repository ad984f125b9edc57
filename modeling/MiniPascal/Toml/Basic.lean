import MiniPascal.Toml.Datetime
import MiniPascal.Toml.Decimal

/-!
# TOML

The values and errors of the configuration language TOML, version 0.4.  Only the values that
settings can hold are kept; of the others the kind is enough.
-/

namespace MiniPascal.Toml

mutual

/-- A value as it is written. -/
inductive Value where
  | integer
  | float (value : Decimal)
  | boolean (value : Bool)
  | datetime (value : Datetime)
  /-- A string that ends on a given line; `none` if an escape in it stands for no character. -/
  | text (value : Option String) (line : Nat)
  | array (elements : List Value)
  /-- A table between braces, the first of them on a given line. -/
  | inline (line : Nat) (pairs : List Pair)

/-- A key with its value.  The key, `none` if an escape in it stands for no character, and the end
of the value each have their line. -/
inductive Pair where
  | mk (key : Option String) (keyLine : Nat) (value : Value) (line : Nat)

end

inductive Entry where
  | pair (p : Pair)
  /-- The head of a table, or of an element of an array of tables.  `keys` are the keys of the name,
  `none` if an escape in one of them stands for no character. -/
  | header (isArray : Bool) (name : String) (keys : List (Option String)) (line : Nat)

inductive Cause where
  | malformed
  /-- An escape that stands for no character. -/
  | badEscape
  /-- A key that stands twice in one table. -/
  | repeatedKey (key : String) (line : Nat)
  /-- A key that names a table. -/
  | keyIsTable (key : String) (line : Nat)
  /-- A key that names an array of tables. -/
  | keyIsTables (key : String)
  /-- A name that leads through a value. -/
  | pathThroughValue (key : String) (line : Nat)
  | repeatedTable (name : String) (line : Nat)
  | tableIsTables (name : String) (line : Nat)
  | tableIsValue (name : String) (line : Nat)
  | tablesAreTable (name : String) (line : Nat)
  | tablesAreValue (name : String) (line : Nat)

/-- The text of a cause.  The line of a repeated key is in hexadecimal, with a letter behind it. -/
def Cause.message : Cause → String
  | malformed => "invalid TOML syntax"
  | badEscape => "invalid syntax"
  | repeatedKey key line =>
    "key `" ++ key ++ "' is in conflict with line " ++ String.ofList (Nat.toDigits 16 line) ++ "d"
  | keyIsTable key line => "key `" ++ key ++ "' is in conflict with table in line " ++ toString line
  | keyIsTables key => "BUG: key `" ++ key ++ "' is in conflict but it's unknown type `[]*ast.Table'"
  | pathThroughValue key line => "key `" ++ key ++ "' is in conflict with line " ++ toString line
  | repeatedTable name line =>
    "table `" ++ name ++ "' is in conflict with table in line " ++ toString line
  | tableIsTables name line =>
    "table `" ++ name ++ "' is in conflict with array table in line " ++ toString line
  | tableIsValue name line => "table `" ++ name ++ "' is in conflict with line " ++ toString line
  | tablesAreTable name line =>
    "array table `" ++ name ++ "' is in conflict with table in line " ++ toString line
  | tablesAreValue name line =>
    "array table `" ++ name ++ "' is in conflict with line " ++ toString line

/-- A fault on a line of a document. -/
structure Error where
  line : Nat
  cause : Cause

end MiniPascal.Toml
