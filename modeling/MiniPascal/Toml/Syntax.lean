import MiniPascal.Toml.Basic
import MiniPascal.Toml.Reader

/-!
# Reading TOML

A document is a sequence of lines with heads of tables, pairs of a key and a value, and comments.
Behind the head of a table pairs may follow with or without line ends between them.  A carriage return
and a line feed each count as the end of a line.
-/

namespace MiniPascal.Toml

open Reader

/-! ## Blanks and comments -/

def isLineEnd (c : Char) : Bool := c == '\n' || c == '\r'

def blanks : Reader Unit := item do discard (span fun c => c == ' ' || c == '\t')

/-- A character that ends a line, which is counted. -/
def lineEnd : Reader Char := do
  let c ← one isLineEnd
  modify fun here => { here with line := here.line + 1 }
  return c

def newline : Reader (List Char) := item (atLeastOne lineEnd)

def space : Reader Unit := item do
  discard (many (one (fun c => c == ' ' || c == '\t') <|> lineEnd))

/-- A character of a comment or of a text without escapes. -/
def isPlain (c : Char) : Bool := c == '\t' || ' ' ≤ c

def comment : Reader Unit := item do
  word "#"
  discard (span isPlain)

/-! ## Numbers and times -/

def digit : Reader Char := item (one Char.isDigit)

/-- The number that some digits spell. -/
def numberOf (ds : List Char) : Nat := ds.foldl (fun n d => n * 10 + (d.toNat - 48)) 0

def twoDigits : Reader Nat := item do return numberOf [← digit, ← digit]

/-- A digit, perhaps behind an underscore. -/
def nextDigit : Reader Char := digit <|> (do word "_"; digit)

/-- A number without sign; more than one digit if it does not start with a zero. -/
def natural : Reader (List Char) := item
  ((do
    let d ← one fun c => '1' ≤ c && c ≤ '9'
    return d :: (← atLeastOne nextDigit)) <|> (do return [← digit]))

/-- Whether there is a minus sign; a plus sign may be there too. -/
def sign : Reader Bool := do return (← maybe (one fun c => c == '-' || c == '+')) == some '-'

def integer : Reader (List Char) := item do
  discard sign
  natural

/-- The digits behind the point. -/
def fraction : Reader (List Char) := item do
  word "."
  return (← digit) :: (← many nextDigit)

def exponent : Reader Int := item do
  discard (one fun c => c == 'e' || c == 'E')
  let negative ← sign
  let n := numberOf ((← digit) :: (← many nextDigit))
  return if negative then -(n : Int) else n

/-- A number with a fraction or an exponent. -/
def float : Reader Decimal := do
  let (written, whole, behind, power) ← textOf (item do
    let whole ← integer
    (do
      let behind ← fraction
      return (whole, behind, (← maybe exponent).getD 0)) <|>
    (do
      let behind ← maybe fraction
      return (whole, behind.getD [], ← exponent)))
  return { text := String.ofList (written.filter (· ≠ '_'))
           digits := numberOf (whole ++ behind), scale := power - behind.length }

def date : Reader Date := item do
  let year ← item do return (← twoDigits) * 100 + (← twoDigits)
  word "-"
  let month ← twoDigits
  word "-"
  return { year, month, day := ← twoDigits }

def time : Reader Time := item do
  let hour ← twoDigits
  word ":"
  let minute ← twoDigits
  word ":"
  let second ← twoDigits
  discard (maybe (item do
    word "."
    atLeastOne digit))
  return { hour, minute, second }

/-- The distance from universal time. -/
def zone : Reader Zone := do
  let (written, hours, minutes) ← textOf (item
    ((do word "Z"; return (0, 0)) <|> item do
      discard (one fun c => c == '-' || c == '+')
      let hours ← twoDigits
      word ":"
      return (hours, ← twoDigits)))
  return { text := String.ofList written, hours, minutes }

/-- A time, and perhaps the distance from universal time. -/
def zonedTime : Reader (Time × Option Zone) := item do return (← time, ← maybe zone)

/-- A date, a date with a time, or a time. -/
def datetime : Reader Datetime := do
  let (written, date, time, zone) ← textOf (item
    ((do
      let day ← date
      let late ← maybe (do word "T"; zonedTime)
      return (some day, late.map (·.1), late.bind (·.2))) <|>
    (do return (none, some (← time), none))))
  return { text := String.ofList written, date, time, zone }

/-! ## Strings -/

def hexDigit : Reader Nat := item do
  let c ← one fun c => c.isDigit || ('a' ≤ c && c ≤ 'f') || ('A' ≤ c && c ≤ 'F')
  return if c.isDigit then c.toNat - 48 else if 'a' ≤ c then c.toNat - 87 else c.toNat - 55

def fourHexDigits : Reader Nat := item do
  let a ← hexDigit
  let b ← hexDigit
  let c ← hexDigit
  let d ← hexDigit
  return ((a * 16 + b) * 16 + c) * 16 + d

/-- The character of a number, if there is one. -/
def charOf? (n : Nat) : Option Char := if n.isValidChar then some (Char.ofNat n) else none

/-- An escape, and the character that it stands for.  The one with a slash stands for none. -/
def escape : Reader (Option Char) := item do
  item (word "\\")
  (do
    let c ← one fun c => "btnfr\"/\\".contains c
    return match c with
      | 'b' => some (Char.ofNat 8)
      | 't' => some '\t'
      | 'n' => some '\n'
      | 'f' => some (Char.ofNat 12)
      | 'r' => some '\r'
      | '/' => none
      | c => some c) <|>
  (do
    word "u"
    return charOf? (← fourHexDigits)) <|>
  (do
    word "U"
    let high ← fourHexDigits
    let low ← fourHexDigits
    return charOf? (high * 0x10000 + low))

/-- A character of a string in double quotes. -/
def basicChar : Reader (Option Char) := item
  ((some <$> item (one fun c => ' ' ≤ c && c ≠ '"' && c ≠ '\\')) <|> escape)

/-- The characters of a string, if all its escapes stand for one. -/
def joinChars (cs : List (Option Char)) : Option String := (cs.mapM id).map String.ofList

def basicString : Reader (Option String) := item do
  word "\""
  let cs ← many basicChar
  word "\""
  return joinChars cs

/-- A piece of a string of several lines: a character, line ends, or the end of a line that is left
out with the blanks behind it. -/
def longPiece : Reader (List (Option Char)) :=
  item ((do return [← basicChar]) <|> (do return (← newline).map some)) <|>
  (do
    item (word "\\")
    discard newline
    space
    return [])

/-- The number of line ends at the start of a text. -/
def leadingEnds (cs : List Char) : Nat := (cs.takeWhile isLineEnd).length

/-- A string in three double quotes.  Line ends at its start are dropped. -/
def longBasicString : Reader (Option String) := item do
  word "\"\"\""
  let (written, pieces) ← textOf (item (many longPiece))
  word "\"\"\""
  return joinChars (pieces.flatten.drop (leadingEnds written))

/-- A string in single quotes, which has no escapes. -/
def literalString : Reader String := item do
  word "'"
  let cs ← many (item (one fun c => isPlain c && c ≠ '\''))
  word "'"
  return String.ofList cs

/-- A piece of a literal of several lines. -/
def longLiteralPiece : Reader (List Char) := do
  absent (word "'''")
  (do return [← item (one isPlain)]) <|> newline

/-- A string in three single quotes.  Line ends at its start are dropped. -/
def longLiteralString : Reader String := item do
  word "'''"
  let pieces ← item (many longLiteralPiece)
  word "'''"
  return String.ofList (pieces.flatten.dropWhile isLineEnd)

/-- A string, and the line on which it ends. -/
def string : Reader Value := item do
  let s ← (some <$> longLiteralString) <|> (some <$> literalString) <|> longBasicString <|>
    basicString
  return .text s (← line)

/-! ## Keys, values and tables -/

/-- A key, `none` if an escape in it stands for no character. -/
def key : Reader (Option String) := item
  ((do
    let c ← one isBare
    return some (String.ofList (c :: (← span isBare)))) <|>
  item do
    word "\""
    let cs ← many basicChar
    word "\""
    return joinChars cs)
where
  /-- A character of a key without quotes. -/
  isBare (c : Char) : Bool := c.isAlphanum || c == '-' || c == '_'

def pair (value : Reader Value) : Reader Pair := item do
  let k ← key
  let keyLine ← line
  blanks
  word "="
  blanks
  let v ← value
  return .mk k keyLine v (← line)

def elements (value : Reader Value) : Reader (List Value) := item do
  let v ← value
  let vs ← many do
    space
    discard (maybe comment)
    space
    item (word ",")
    space
    discard (maybe comment)
    space
    value
  space
  discard (maybe (item (word ",")))
  space
  discard (maybe comment)
  return v :: vs

def array (value : Reader Value) : Reader Value := item do
  word "["
  space
  let vs ← maybe (elements value)
  space
  word "]"
  return .array (vs.getD [])

/-- A table between braces.  The commas between its pairs may be left out. -/
def inlineTable (value : Reader Value) : Reader Value := item do
  word "\x7b"
  let start ← line
  blanks
  let pairs ← item (many do
    let p ← pair value
    discard (maybe (item do
      blanks
      word ","
      blanks))
    return p)
  blanks
  word "\x7d"
  return .inline start pairs

/-- A value with at most `n` arrays and tables within each other. -/
def value : Nat → Reader Value
  | 0 => failure
  | n + 1 => item
    ((do return .datetime (← datetime)) <|>
      (do return .float (← float)) <|>
      (do discard integer; return .integer) <|>
      string <|>
      item ((do word "true"; return .boolean true) <|> (do word "false"; return .boolean false)) <|>
      array (value n) <|>
      inlineTable (value n))

/-- The name of a table: keys with points between them. -/
def tableName : Reader (List Char × List (Option String)) := textOf (item do
  let k ← key
  let ks ← many do
    item do
      blanks
      word "."
      blanks
    key
  return k :: ks)

/-- The head of a table or of an element of an array of tables. -/
def header : Reader Entry := item
  (item (bracketed false "[" "]") <|> item (bracketed true "[[" "]]"))
where
  /-- A name between brackets. -/
  bracketed (isArray : Bool) (left right : String) : Reader Entry := do
    word left
    blanks
    let (name, keys) ← tableName
    blanks
    word right
    return .header isArray (String.ofList name) keys (← line)

/-- The head of a table with the pairs behind it, a pair, or nothing; with a comment or without. -/
def expression (depth : Nat) : Reader (List Entry) := item
  ((do
    blanks
    let h ← header
    blanks
    discard (maybe comment)
    let pairs ← many do
      space
      let p ← pair (value depth)
      blanks
      discard (maybe comment)
      return p
    return h :: pairs.map .pair) <|>
  (do
    blanks
    let p ← pair (value depth)
    blanks
    discard (maybe comment)
    return [.pair p]) <|>
  (do
    blanks
    discard (maybe comment)
    return []))

def document (depth : Nat) : Reader (List Entry) := do
  let first ← expression depth
  let rest ← many do
    discard newline
    expression depth
  discard (maybe newline)
  absent (one fun _ => true)
  return first ++ rest.flatten

/-- The line on which a text of `source` cannot be read on.  `left` is how much was left behind the
last complete item; if a line ends there, the next one is meant. -/
def faultLine (source : List Char) (left : Nat) : Nat :=
  (source.take (source.length - left + 1)).count '\n' + 1

def parse (source : String) : Except Error (List Entry) :=
  let cs := source.toList
  match ((document (cs.length + 1)).run { rest := cs }).run.run cs.length with
  | (some (entries, _), _) => .ok entries
  | (none, left) => .error ⟨faultLine cs left, .malformed⟩

end MiniPascal.Toml
