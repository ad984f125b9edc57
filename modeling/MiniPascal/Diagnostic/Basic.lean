import MiniPascal.Tree.Fault

/-!
# Diagnostics

A diagnostic is a complaint about a place in a text.  Every stage of the compiler has its own type
of faults; here they come together as a category, a token and a message.
-/

namespace MiniPascal

/-- What kind of complaint a diagnostic is. -/
inductive Category where
  | lexical
  | syntactic
  | semantic
  | structural
  /-- A number that no category has. -/
  | other (code : Int)
  deriving DecidableEq

namespace Category

def label : Category → String
  | lexical => "lexical error"
  | syntactic => "syntax error"
  | semantic => "error"
  | structural => "internal error"
  | other _ => "error"

def ofCode : Int → Category
  | 0 => lexical
  | 1 => syntactic
  | 2 => semantic
  | 3 => structural
  | code => other code

end Category

/-- A complaint about a token.  Where one token was expected and another found, both are kept. -/
structure Diagnostic where
  category : Category
  tok : Token
  message : String
  expected : String := ""
  got : String := ""

namespace Diagnostic

/-- The complaint that `tok` stands where `expected` should. -/
def mismatch (tok : Token) (expected : String) : Diagnostic :=
  { category := .syntactic
    tok
    message := "expected '" ++ expected ++ "', got '" ++ tok.describe ++ "'"
    expected
    got := tok.describe }

/-- A diagnostic on one line, without its file.  Line 0 means that it has no place. -/
def text (d : Diagnostic) : String :=
  let complaint := d.category.label ++ ": " ++ d.message
  if d.tok.line = 0 then complaint
  else toString d.tok.line ++ ":" ++ toString d.tok.column ++ ": " ++ complaint

end Diagnostic

def SyntaxFault.diagnostic : SyntaxFault → Diagnostic
  | lexical found => { category := .lexical, tok := found, message := found.value }
  | unexpected found expected => .mismatch found expected
  | emptyArray array lower upper =>
    { category := .syntactic
      tok := array
      message := "array upper bound " ++ toString upper ++ " is below lower bound " ++
        toString lower }

end MiniPascal
