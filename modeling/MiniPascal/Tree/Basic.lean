import MiniPascal.Token.Basic
import MiniPascal.Tree.Type

/-!
# Syntax trees

One type holds every construct of the language, so that a tree can be built by hand in shapes that
no source text has: a missing part is `Tree.absent`, and a node of a kind that the language lacks is
`Tree.unknown`.  Each node carries the token at which it starts.
-/

namespace MiniPascal

inductive Tree where
  /-- A part that is not there: the `else` of a plain `if`, the body of a forward declaration. -/
  | absent
  | number (tok : Token) (value : Int64)
  | text (tok : Token) (value : String)
  | name (tok : Token) (name : String)
  | element (tok : Token) (array : String) (index : Tree)
  | assign (tok : Token) (target value : Tree)
  | binary (tok : Token) (op : Kind) (left right : Tree)
  | call (tok : Token) (routine : String) (args : List Tree)
  | branch (tok : Token) (cond yes no : Tree)
  | count (tok : Token) (var : String) (start stop : Tree) (down : Bool) (body : Tree)
  | loop (tok : Token) (cond body : Tree)
  | leave (tok : Token)
  | exit (tok : Token)
  | block (tok : Token) (stmts : List Tree)
  /-- A variable.  `typeTok` is where its type was written; names declared together share it. -/
  | varDecl (tok : Token) (name : String) (type : VarType) (typeTok : Token)
  | constDecl (tok : Token) (name : String) (value : Int64)
  /-- A routine.  Without a result it is a procedure, without a body a forward declaration. -/
  | routine (tok : Token) (name : String) (params : List Tree) (result : VarType)
      (locals : List Tree) (body : Tree)
  | program (tok : Token) (name : String) (decls routines : List Tree) (main : Tree)
  /-- A node of a kind that the language does not have. -/
  | unknown (tok : Token) (code : Int)

namespace Tree

instance : Inhabited Tree := ⟨absent⟩

def tok : Tree → Token
  | absent => .nowhere
  | number t _ | text t _ | name t _ | element t _ _ | assign t _ _ | binary t _ _ _
  | call t _ _ | branch t _ _ _ | count t _ _ _ _ _ | loop t _ _ | leave t | exit t | block t _
  | varDecl t _ _ _ | constDecl t _ _ | routine t _ _ _ _ _ | program t _ _ _ _ | unknown t _ => t

def isAbsent : Tree → Bool
  | absent => true
  | _ => false

/-- The names of the kinds of nodes, in the order of their numbers. -/
def kindNames : List String :=
  ["Number", "String", "Ident", "Subscript", "Assign", "BinaryOp", "FuncCall", "If", "For", "While",
    "Break", "Exit", "Block", "VarDecl", "ConstDecl", "FuncDecl", "Program"]

/-- The number of a node's kind. -/
def kindCode : Tree → Int
  | absent => -1
  | number .. => 0
  | text .. => 1
  | name .. => 2
  | element .. => 3
  | assign .. => 4
  | binary .. => 5
  | call .. => 6
  | branch .. => 7
  | count .. => 8
  | loop .. => 9
  | leave .. => 10
  | exit .. => 11
  | block .. => 12
  | varDecl .. => 13
  | constDecl .. => 14
  | routine .. => 15
  | program .. => 16
  | unknown _ code => code

/-- The name of a numbered kind of nodes. -/
def kindNameOf (code : Int) : String :=
  if code < 0 then "Unknown" else (kindNames[code.toNat]?).getD "Unknown"

def kindName (t : Tree) : String := kindNameOf t.kindCode

end Tree

end MiniPascal
