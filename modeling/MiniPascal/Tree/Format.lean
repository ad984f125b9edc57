import MiniPascal.Tree.Basic

/-!
# Trees as S-expressions

`Tree.format` writes a tree on one line.  It shows shapes, names and literals and leaves out
positions.
-/

namespace MiniPascal.Tree

/-- The word for the direction of a counting loop. -/
def direction (down : Bool) : String := if down then "downto" else "to"

mutual

/-- A tree as an S-expression. -/
def format : Tree → String
  | absent => "nil"
  | number _ value => toString value
  | text _ value => "'" ++ value ++ "'"
  | name _ id => id
  | element _ array index => "(index " ++ array ++ " " ++ index.format ++ ")"
  | assign _ target value => "(:= " ++ target.format ++ " " ++ value.format ++ ")"
  | binary _ op left right =>
    "(" ++ op.spelling ++ " " ++ left.format ++ " " ++ right.format ++ ")"
  | call _ callee args => "(call " ++ callee ++ formatItems args ++ ")"
  | branch _ cond yes no =>
    let otherwise := if no.isAbsent then "" else " " ++ no.format
    "(if " ++ cond.format ++ " " ++ yes.format ++ otherwise ++ ")"
  | count _ var start stop down body =>
    "(for " ++ var ++ " " ++ start.format ++ " " ++ direction down ++ " " ++ stop.format ++ " " ++
      body.format ++ ")"
  | loop _ cond body => "(while " ++ cond.format ++ " " ++ body.format ++ ")"
  | leave _ => "(break)"
  | exit _ => "(exit)"
  | block _ stmts => "(begin" ++ formatItems stmts ++ ")"
  | varDecl _ id type _ => "(var " ++ id ++ " " ++ type.format ++ ")"
  | constDecl _ id value => "(const " ++ id ++ " " ++ toString value ++ ")"
  | routine _ id params result locals body =>
    let (word, returns) :=
      if result = .void then ("procedure", "") else ("function", " (returns " ++ result.format ++ ")")
    let code :=
      if body.isAbsent then " forward"
      else " (locals" ++ formatItems locals ++ ") " ++ body.format
    "(" ++ word ++ " " ++ id ++ " (params" ++ formatItems params ++ ")" ++ returns ++ code ++ ")"
  | program _ id decls routines main =>
    "(program " ++ id ++ " (decls" ++ formatItems decls ++ ") (funcs" ++ formatItems routines ++
      ") " ++ main.format ++ ")"
  | unknown .. => "(?Unknown)"

/-- The items of a list, each behind a space. -/
def formatItems : List Tree → String
  | [] => ""
  | t :: ts => " " ++ t.format ++ formatItems ts

end

end MiniPascal.Tree
