import MiniPascal.Switch.Basic
import MiniPascal.Text.Space
import MiniPascal.Token.Basic

/-!
# Reading tokens

A text is read in three layers, each with one concern.

* `Lexeme.read` looks only at characters: it says which token starts at a character that is no
  blank, and how many characters it takes.  It always takes at least one.
* `Cursor` keeps the line and the column while characters are passed.
* `Cursor.skip` passes white space and comments; `Cursor.scan` reads one token, and `tokenize`
  all of them.

A text that is no token becomes an error token whose value is the complaint, and reading goes on
behind it.
-/

namespace MiniPascal

/-! ## Character classes -/

/-- Letters of identifiers are the ASCII letters. -/
def isLetter (c : Char) : Bool := ('a' ≤ c && c ≤ 'z') || ('A' ≤ c && c ≤ 'Z')

def isDigit (c : Char) : Bool := '0' ≤ c && c ≤ '9'

/-- The characters that continue an identifier. -/
def isWordChar (c : Char) : Bool := isLetter c || isDigit c || c == '_'

/-- The characters that may not directly follow a number. -/
def isLetterOrDigit (c : Char) : Bool := isLetter c || isDigit c

/-- An ASCII letter in lower case; any other character is kept. -/
def foldCase (c : Char) : Char :=
  if 'A' ≤ c && c ≤ 'Z' then Char.ofNat (c.toNat + 32) else c

/-! ## Numbers -/

/-- The base of a number literal. -/
inductive Radix where
  | decimal
  | octal
  | hexadecimal
  deriving DecidableEq

namespace Radix

def size : Radix → Nat
  | decimal => 10
  | octal => 8
  | hexadecimal => 16

def name : Radix → String
  | decimal => "decimal"
  | octal => "octal"
  | hexadecimal => "hexadecimal"

def isDigit : Radix → Char → Bool
  | decimal, c => MiniPascal.isDigit c
  | octal, c => '0' ≤ c && c ≤ '7'
  | hexadecimal, c => MiniPascal.isDigit c || ('a' ≤ c && c ≤ 'f') || ('A' ≤ c && c ≤ 'F')

end Radix

/-- The value of a digit, of either case. -/
def digitValue (c : Char) : Nat :=
  if isDigit c then c.toNat - 48 else (foldCase c).toNat - 87

/-- The positional value of a run of digits. -/
def digitsValue (base : Nat) (ds : List Char) : Nat :=
  ds.foldl (fun n c => n * base + digitValue c) 0

/-- The largest magnitude of a literal: it admits the least 32-bit integer behind a minus sign. -/
def maxLiteral : Nat := 2147483648

/-! ## Lexemes -/

/-- What is read at a character: a kind of token, its value, and the number of characters that it
takes beyond the first. -/
structure Lexeme where
  kind : Kind
  value : String := ""
  number : Int64 := 0
  more : Nat := 0

namespace Lexeme

/-- An error token of `more + 1` characters. -/
def error (message : String) (more : Nat) : Lexeme := { kind := .error, value := message, more }

/-- An identifier or keyword that starts with the letter `c`. -/
def word (fold : Bool) (c : Char) (cs : List Char) : Lexeme :=
  let tail := cs.takeWhile isWordChar
  let text := String.ofList (if fold then (c :: tail).map foldCase else c :: tail)
  match Kind.keyword? text with
  | some k => { kind := k, more := tail.length }
  | none => { kind := .identifier, value := text, more := tail.length }

/-- A number whose digits start at `ds`, behind the characters `lead`: the sign of its base, or
nothing.  At least one of `lead` and `ds` is not empty where this is used. -/
def numeral (radix : Radix) (lead ds : List Char) : Lexeme :=
  let digits := ds.takeWhile radix.isDigit
  let rest := ds.dropWhile radix.isDigit
  let tail := rest.takeWhile isLetterOrDigit
  let more := lead.length + digits.length - 1
  if digits.isEmpty then
    error ("malformed " ++ radix.name ++ " literal") more
  else if !tail.isEmpty then
    error ("invalid digit in " ++ radix.name ++ " literal") (more + tail.length)
  else
    let n := digitsValue radix.size digits
    if maxLiteral < n then
      error "integer literal out of range" more
    else
      { kind := .number, value := String.ofList (lead ++ digits), number := Int64.ofNat n, more }

/-- A string whose contents start at `cs`, behind the opening quote.  A line break ends it. -/
def quoted (cs : List Char) : Lexeme :=
  let isInside (c : Char) : Bool := c != '\'' && c != '\n'
  let contents := cs.takeWhile isInside
  match cs.dropWhile isInside with
  | '\'' :: _ => { kind := .string, value := String.ofList contents, more := contents.length + 1 }
  | _ => error "unterminated string literal" contents.length

/-- An operator, or an error for a character that starts no token. -/
def symbol : Char → List Char → Lexeme
  | '+', _ => { kind := .plus }
  | '-', _ => { kind := .minus }
  | '*', _ => { kind := .star }
  | '=', _ => { kind := .eq }
  | '(', _ => { kind := .lparen }
  | ')', _ => { kind := .rparen }
  | '[', _ => { kind := .lbracket }
  | ']', _ => { kind := .rbracket }
  | ',', _ => { kind := .comma }
  | ';', _ => { kind := .semi }
  | ':', '=' :: _ => { kind := .assign, more := 1 }
  | ':', _ => { kind := .colon }
  | '.', '.' :: _ => { kind := .dotDot, more := 1 }
  | '.', _ => { kind := .dot }
  | '>', '=' :: _ => { kind := .ge, more := 1 }
  | '>', _ => { kind := .gt }
  | '<', '>' :: _ => { kind := .ne, more := 1 }
  | '<', '=' :: _ => { kind := .le, more := 1 }
  | '<', _ => { kind := .lt }
  | c, _ => error ("unexpected character '" ++ c.toString ++ "'") 0

/-- The token that starts at `c`, followed by `cs`. -/
def read (on : Switches Feature) (c : Char) (cs : List Char) : Lexeme :=
  if isLetter c then word (on .caseFold) c cs
  else if isDigit c then numeral .decimal [] (c :: cs)
  else if c = '&' then numeral .octal [c] cs
  else if c = '$' then numeral .hexadecimal [c] cs
  else if c = '\'' then quoted cs
  else symbol c cs

end Lexeme

/-! ## Places -/

/-- A reader of a text: the characters still to be read, and the place of the first of them. -/
structure Cursor where
  rest : List Char
  line : Nat := 1
  column : Nat := 1

namespace Cursor

def start (source : String) : Cursor := { rest := source.toList }

/-- Passes the character `c`, which a reader of `cs` has just taken off. -/
def pass (at_ : Cursor) (c : Char) (cs : List Char) : Cursor :=
  if c = '\n' then { rest := cs, line := at_.line + 1, column := 1 }
  else { rest := cs, line := at_.line, column := at_.column + 1 }

/-- Passes `n` characters, or as many as there are. -/
def advance (at_ : Cursor) : Nat → Cursor
  | 0 => at_
  | n + 1 =>
    match at_.rest with
    | [] => at_
    | c :: cs => (at_.pass c cs).advance n

/-- The token of a lexeme, as it stands at a cursor. -/
def token (at_ : Cursor) (file : Int) (x : Lexeme) : Token :=
  { kind := x.kind, value := x.value, number := x.number, file
    line := at_.line, column := at_.column, length := x.more + 1 }

@[simp] theorem rest_pass (at_ : Cursor) (c : Char) (cs : List Char) : (at_.pass c cs).rest = cs := by
  unfold pass
  split <;> rfl

theorem rest_advance (at_ : Cursor) (n : Nat) : (at_.advance n).rest = at_.rest.drop n := by
  induction n generalizing at_ with
  | zero => rfl
  | succ n ih =>
    unfold advance
    split
    · simp [*]
    · next c cs h => simp [ih, h]

/-! ## Blanks -/

/-- What follows the blanks of a text. -/
inductive Gap where
  /-- The next token, or the end of the text, is at this place. -/
  | closed (next : Cursor)
  /-- A comment was opened at this place and is never closed. -/
  | unclosed (opening : Cursor)

/-- Which blank is being passed. -/
inductive Blank where
  | space
  | lineComment
  | braceComment (opening : Cursor)

/-- Passes blanks from inside `mode`.  The text `cs` is what `at_` has still to read. -/
def skipFrom (braces : Bool) (mode : Blank) (at_ : Cursor) : List Char → Gap
  | [] =>
    match mode with
    | .braceComment opening => .unclosed opening
    | _ => .closed at_
  | c :: cs =>
    let next := at_.pass c cs
    match mode with
    | .space =>
      if Text.isSpace c then skipFrom braces .space next cs
      else if c = '#' then skipFrom braces .lineComment next cs
      else if c = '\x7b' && braces then skipFrom braces (.braceComment at_) next cs
      else .closed at_
    | .lineComment =>
      if c = '\n' then skipFrom braces .space next cs else skipFrom braces .lineComment next cs
    | .braceComment opening =>
      if c = '\x7d' then skipFrom braces .space next cs
      else skipFrom braces (.braceComment opening) next cs

/-- Passes white space, `#` comments and, if `braces` is set, brace comments. -/
def skip (braces : Bool) (at_ : Cursor) : Gap := skipFrom braces .space at_ at_.rest

/-! ## Tokens -/

/-- Reads one token and says where the next reading starts. -/
def scan (on : Switches Feature) (file : Int) (at_ : Cursor) : Token × Cursor :=
  match at_.skip (on .braceComments) with
  | .unclosed opening =>
    let x : Lexeme := .error "unterminated comment" (opening.rest.length - 1)
    (opening.token file x, opening.advance opening.rest.length)
  | .closed next =>
    match next.rest with
    | [] => ({ kind := .eof, file, line := next.line, column := next.column }, next)
    | c :: cs =>
      let x := Lexeme.read on c cs
      (next.token file x, next.advance (x.more + 1))

/-! ## Progress -/

/-- The place that a gap ends or breaks off at. -/
def Gap.place : Gap → Cursor
  | closed next => next
  | unclosed opening => opening

/-- Passing blanks never goes back, and an unclosed comment takes at least one character. -/
theorem skipFrom_bounds (braces : Bool) {n : Nat} (mode : Blank) (at_ : Cursor) {cs : List Char}
    (rest_eq : at_.rest = cs) (length_le : cs.length ≤ n)
    (inside : ∀ opening, mode = .braceComment opening →
      0 < opening.rest.length ∧ opening.rest.length ≤ n) :
    (skipFrom braces mode at_ cs).place.rest.length ≤ n ∧
      ∀ opening, skipFrom braces mode at_ cs = .unclosed opening → 0 < opening.rest.length := by
  induction cs generalizing mode at_ with
  | nil =>
    cases mode with
    | braceComment opening => simpa [skipFrom, Gap.place] using ⟨(inside _ rfl).2, (inside _ rfl).1⟩
    | _ => simp [skipFrom, Gap.place, rest_eq]
  | cons c cs ih =>
    have shorter : cs.length ≤ n := Nat.le_of_succ_le length_le
    have plain (mode : Blank) (h : ∀ opening, mode ≠ .braceComment opening) :=
      ih mode (at_.pass c cs) (rest_pass at_ c cs) shorter fun o ho => absurd ho (h o)
    unfold skipFrom
    cases mode with
    | space =>
      dsimp only
      split
      · exact plain _ (by simp)
      · split
        · exact plain _ (by simp)
        · split
          · refine ih _ _ (rest_pass at_ c cs) shorter fun o ho => ?_
            injection ho with ho
            subst ho
            simpa [rest_eq] using length_le
          · simpa [Gap.place, rest_eq] using length_le
    | lineComment =>
      dsimp only
      split <;> exact plain _ (by simp)
    | braceComment opening =>
      dsimp only
      split
      · exact plain _ (by simp)
      · exact ih _ _ (rest_pass at_ c cs) shorter inside

/-- Reading a token before the end of input shortens the text. -/
theorem length_rest_scan_lt {on : Switches Feature} {file : Int} {at_ next : Cursor} {t : Token}
    (read : at_.scan on file = (t, next)) (notEof : t.kind ≠ .eof) :
    next.rest.length < at_.rest.length := by
  have bounds := skipFrom_bounds (on .braceComments) .space at_ rfl (Nat.le_refl _) (by simp)
  unfold scan skip at read
  split at read
  · next opening gap =>
    rw [gap] at bounds
    have nonempty := bounds.2 opening rfl
    have bound : opening.rest.length ≤ at_.rest.length := bounds.1
    injection read with _ hnext
    rw [← hnext, rest_advance, List.length_drop]
    omega
  · next place gap =>
    rw [gap] at bounds
    have bound : place.rest.length ≤ at_.rest.length := bounds.1
    split at read
    · injection read with ht
      exact absurd (by rw [← ht]) notEof
    · next c cs hrest =>
      injection read with _ hnext
      rw [hrest, List.length_cons] at bound
      rw [← hnext, rest_advance, List.length_drop, hrest, List.length_cons]
      omega

end Cursor

/-! ## Texts -/

def tokensFrom (on : Switches Feature) (file : Int) (at_ : Cursor) : Stream :=
  match _read : at_.scan on file with
  | (t, next) =>
    if _end : t.kind = .eof then { tokens := [], closing := t }
    else
      let later := tokensFrom on file next
      { later with tokens := t :: later.tokens }
termination_by at_.rest.length
decreasing_by exact Cursor.length_rest_scan_lt _read _end

def tokenize (on : Switches Feature) (file : Int) (source : String) : Stream :=
  tokensFrom on file (.start source)

end MiniPascal
