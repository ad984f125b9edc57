import MiniPascal.Token.Basic

/-!
# Faults of syntax

Why a sequence of tokens is no program.  Reading stops at the first fault.
-/

namespace MiniPascal

inductive SyntaxFault where
  /-- The text could not be cut into tokens; the token says why. -/
  | lexical (found : Token)
  /-- Something else was expected in place of the token that was found. -/
  | unexpected (found : Token) (expected : String)
  /-- An array type has an upper bound below its lower one. -/
  | emptyArray (array : Token) (lower upper : Int64)

namespace SyntaxFault

/-- The token at which the fault is reported. -/
def token : SyntaxFault → Token
  | lexical found => found
  | unexpected found _ => found
  | emptyArray array _ _ => array

/-- The fault of finding the next token of `s` where `expected` should stand.  An error token is
its own fault. -/
def at_ (s : Stream) (expected : String) : SyntaxFault :=
  if s.head.kind = .error then lexical s.head else unexpected s.head expected

end SyntaxFault

end MiniPascal
