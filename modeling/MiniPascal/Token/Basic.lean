import MiniPascal.Token.Kind

/-!
# Tokens

A token is a lexical unit with the place where it was read.  `value` holds the text of an
identifier, the spelling of a number, the contents of a string, or the message of an error token;
it is empty for every other kind.  `number` is the value of a number token.
-/

namespace MiniPascal

/-- A lexical unit.  Lines and columns count from 1; a line of 0 means "nowhere". -/
structure Token where
  kind : Kind
  value : String := ""
  file : Int := 0
  line : Int := 0
  column : Int := 0
  length : Int := 0
  number : Int64 := 0
  deriving DecidableEq

namespace Token

/-- The token that stands for no place in any text. -/
def nowhere : Token := { kind := .eof }

instance : Inhabited Token := ⟨nowhere⟩

/-- The token as diagnostics quote it. -/
def describe (t : Token) : String :=
  match t.kind with
  | .identifier => t.value
  | .number => t.value
  | .string => "'" ++ t.value ++ "'"
  | k => k.spelling

/-- The name carried by an identifier. -/
def identifierText (t : Token) : String :=
  if t.kind = .identifier then t.value else ""

/-- The value of a number token. -/
def numericValue (t : Token) : Int64 :=
  if t.kind = .number then t.number else 0

/-- The contents of a string token. -/
def stringValue (t : Token) : String :=
  if t.kind = .string then t.value else ""

end Token

/-- What is left of a sequence of tokens.  Past its tokens the sequence goes on with end-of-input
tokens at the place `closing`, for ever. -/
structure Stream where
  tokens : List Token
  closing : Token := .nowhere

namespace Stream

def ending (s : Stream) : Token := { s.closing with kind := .eof, value := "", number := 0 }

/-- The token to be read next. -/
def head (s : Stream) : Token := s.tokens.headD s.ending

/-- The stream past its next token. -/
def tail (s : Stream) : Stream := { s with tokens := s.tokens.tail }

/-- The number of tokens before the end of input. -/
def size (s : Stream) : Nat := s.tokens.length

/-- How many of the tokens of `s` have been looked at by a reader that has come to `rest`: those it
passed, and the next one. -/
def handedOut (s rest : Stream) : Nat := min s.size (s.size - rest.size + 1)

/-- A token other than end-of-input is one of the listed tokens, so reading it shortens the
stream. -/
theorem size_tail_lt {s : Stream} (h : s.head.kind ≠ .eof) : s.tail.size < s.size := by
  cases hs : s.tokens with
  | nil => simp [head, ending, hs] at h
  | cons t ts => simp [size, tail, hs]

end Stream

end MiniPascal
