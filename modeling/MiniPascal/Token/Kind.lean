/-!
# Token kinds

The closed set of lexical classes.  A kind has a spelling, which diagnostics quote, and a number,
its place in `Kind.named`.  Numbers outside that range belong to `Kind.other`, so every integer
names a kind.
-/

namespace MiniPascal

inductive Kind where
  | eof
  | error
  | identifier
  | number
  | string
  | kwProgram
  | kwConst
  | kwVar
  | kwBegin
  | kwEnd
  | kwDiv
  | kwMod
  | kwInteger
  | kwArray
  | kwOf
  | kwIf
  | kwThen
  | kwElse
  | kwWhile
  | kwDo
  | kwFor
  | kwTo
  | kwDownto
  | kwOr
  | kwAnd
  | kwProcedure
  | kwFunction
  | kwForward
  | kwBreak
  | kwExit
  | plus
  | minus
  | star
  | eq
  | ne
  | lt
  | le
  | gt
  | ge
  | lparen
  | rparen
  | lbracket
  | rbracket
  | assign
  | colon
  | comma
  | semi
  | dot
  | dotDot
  /-- A number that no class has. -/
  | other (code : Int)
  deriving DecidableEq

namespace Kind

/-- The keywords, in the order of their numbers. -/
def keywords : List Kind :=
  [kwProgram, kwConst, kwVar, kwBegin, kwEnd, kwDiv, kwMod, kwInteger, kwArray, kwOf, kwIf, kwThen,
    kwElse, kwWhile, kwDo, kwFor, kwTo, kwDownto, kwOr, kwAnd, kwProcedure, kwFunction, kwForward,
    kwBreak, kwExit]

/-- Every class of tokens, in the order of their numbers. -/
def named : List Kind :=
  [eof, error, identifier, number, string] ++ keywords ++
    [plus, minus, star, eq, ne, lt, le, gt, ge, lparen, rparen, lbracket, rbracket, assign, colon,
      comma, semi, dot, dotDot]

/-- How a kind is written: the text of a keyword or operator, or the name of a class. -/
def spelling : Kind → String
  | eof => "EOF"
  | error => "ERROR"
  | identifier => "identifier"
  | number => "number"
  | string => "string"
  | kwProgram => "program"
  | kwConst => "const"
  | kwVar => "var"
  | kwBegin => "begin"
  | kwEnd => "end"
  | kwDiv => "div"
  | kwMod => "mod"
  | kwInteger => "integer"
  | kwArray => "array"
  | kwOf => "of"
  | kwIf => "if"
  | kwThen => "then"
  | kwElse => "else"
  | kwWhile => "while"
  | kwDo => "do"
  | kwFor => "for"
  | kwTo => "to"
  | kwDownto => "downto"
  | kwOr => "or"
  | kwAnd => "and"
  | kwProcedure => "procedure"
  | kwFunction => "function"
  | kwForward => "forward"
  | kwBreak => "break"
  | kwExit => "exit"
  | plus => "+"
  | minus => "-"
  | star => "*"
  | eq => "="
  | ne => "<>"
  | lt => "<"
  | le => "<="
  | gt => ">"
  | ge => ">="
  | lparen => "("
  | rparen => ")"
  | lbracket => "["
  | rbracket => "]"
  | assign => ":="
  | colon => ":"
  | comma => ","
  | semi => ";"
  | dot => "."
  | dotDot => ".."
  | other code => "token(" ++ toString code ++ ")"

def ofCode (code : Int) : Kind :=
  if code < 0 then other code else (named[code.toNat]?).getD (other code)

def code : Kind → Int
  | other code => code
  | k => named.idxOf k

def ofSpelling? (s : String) : Option Kind :=
  named.find? fun k => k.spelling == s

def keyword? (s : String) : Option Kind :=
  keywords.find? fun k => k.spelling == s

end Kind

end MiniPascal
