import MiniPascal.Json.Basic

/-!
# Reading JSON

Half of a surrogate pair in a string becomes the replacement character.
-/

namespace MiniPascal.JsonValue

def skipSpace (cs : List Char) : List Char :=
  cs.dropWhile fun c => c = ' ' || c = '\t' || c = '\n' || c = '\r'

/-- The value of a digit of base 16. -/
def hexValue? (c : Char) : Option Nat :=
  if c.isDigit then some (c.toNat - 48)
  else if 'a' ≤ c && c ≤ 'f' then some (c.toNat - 87)
  else if 'A' ≤ c && c ≤ 'F' then some (c.toNat - 55)
  else none

/-- The number that four digits of base 16 spell, and the rest. -/
def fourDigits? : List Char → Option (Nat × List Char)
  | a :: b :: c :: d :: rest => do
    let a ← hexValue? a
    let b ← hexValue? b
    let c ← hexValue? c
    let d ← hexValue? d
    return (((a * 16 + b) * 16 + c) * 16 + d, rest)
  | _ => none

/-- The character of a number that is no half of a pair. -/
def unit (n : Nat) : Char := if n.isValidChar then Char.ofNat n else '�'

/-- The characters that units of 16 bits spell. -/
def joinUnits : List Nat → List Char
  | [] => []
  | [n] => [unit n]
  | high :: low :: rest =>
    if 0xD800 ≤ high && high < 0xDC00 && 0xDC00 ≤ low && low < 0xE000 then
      Char.ofNat (0x10000 + (high - 0xD800) * 0x400 + (low - 0xDC00)) :: joinUnits rest
    else unit high :: joinUnits (low :: rest)

/-- The character that a letter behind a backslash stands for. -/
def escaped? : Char → Option Char
  | '"' => some '"'
  | '\\' => some '\\'
  | '/' => some '/'
  | 'b' => some (Char.ofNat 8)
  | 'f' => some (Char.ofNat 12)
  | 'n' => some '\n'
  | 'r' => some '\r'
  | 't' => some '\t'
  | _ => none

/-- The characters of a string behind its first quote, and the rest.  `units` are the numbers of the
escapes just before. -/
def readChars : Nat → List Nat → List Char → Option (List Char × List Char)
  | 0, _, _ => none
  | _, _, [] => none
  | fuel + 1, units, c :: cs =>
    let close (p : List Char × List Char) : List Char × List Char := (joinUnits units ++ p.1, p.2)
    if c = '"' then some (close ([], cs))
    else if c.toNat < 0x20 then none
    else if c = '\\' then
      match cs with
      | 'u' :: ds => do
        let (n, rest) ← fourDigits? ds
        readChars fuel (units ++ [n]) rest
      | e :: rest => do
        let x ← escaped? e
        let (xs, rest) ← readChars fuel [] rest
        return close (x :: xs, rest)
      | [] => none
    else do
      let (xs, rest) ← readChars fuel [] cs
      return close (c :: xs, rest)

/-- A string behind its first quote, and the rest. -/
def readString (cs : List Char) : Option (String × List Char) := do
  let (xs, rest) ← readChars (cs.length + 1) [] cs
  return (String.ofList xs, rest)

/-- Digits, at least one of them, and the rest. -/
def readDigits (cs : List Char) : Option (List Char × List Char) :=
  let ds := cs.takeWhile Char.isDigit
  if ds.isEmpty then none else some (ds, cs.drop ds.length)

/-- The digits in front of the point: a 0 alone, or digits that start with another one. -/
def readWhole (cs : List Char) : Option (List Char × List Char) :=
  if cs.head? = some '0' then some (['0'], cs.tail) else readDigits cs

/-- The digits behind the point with the point, if there is one. -/
def readFraction (cs : List Char) : Option (List Char × List Char) :=
  if cs.head? = some '.' then (readDigits cs.tail).map fun (ds, rest) => ('.' :: ds, rest) else some ([], cs)

/-- The exponent with its mark, if there is one. -/
def readExponent : List Char → Option (List Char × List Char)
  | [] => some ([], [])
  | e :: rest =>
    if e = 'e' || e = 'E' then do
      let (mark, rest) := match rest with
        | s :: rest' => if s = '+' || s = '-' then ([e, s], rest') else ([e], rest)
        | [] => ([e], rest)
      let (ds, rest) ← readDigits rest
      return (mark ++ ds, rest)
    else some ([], e :: rest)

def readNumber (cs : List Char) : Option (String × List Char) := do
  let (sign, cs) := if cs.head? = some '-' then (['-'], cs.tail) else ([], cs)
  let (whole, cs) ← readWhole cs
  let (fraction, cs) ← readFraction cs
  let (exponent, cs) ← readExponent cs
  return (String.ofList (sign ++ whole ++ fraction ++ exponent), cs)

def readWord (word : String) (cs : List Char) : Option (List Char) :=
  if word.toList.isPrefixOf cs then some (cs.drop word.length) else none

/-- Items with commas between them up to a bracket, and the rest. -/
def readItems {α : Type} (item : List Char → Option (α × List Char)) (bracket : Char) :
    Nat → List Char → Option (List α × List Char)
  | 0, _ => none
  | fuel + 1, cs => do
    let (x, rest) ← item cs
    let rest := skipSpace rest
    if rest.head? = some bracket then some ([x], rest.tail)
    else if rest.head? = some ',' then
      (readItems item bracket fuel rest.tail).map fun (xs, rest) => (x :: xs, rest)
    else none

/-- Any number of items up to a bracket, and the rest. -/
def readList {α : Type} (item : List Char → Option (α × List Char)) (bracket : Char) (fuel : Nat)
    (cs : List Char) : Option (List α × List Char) :=
  if (skipSpace cs).head? = some bracket then some ([], (skipSpace cs).tail)
  else readItems item bracket fuel cs

def readField (value : List Char → Option (JsonValue × List Char)) (cs : List Char) :
    Option (JsonField × List Char) :=
  match skipSpace cs with
  | '"' :: rest => do
    let (name, rest) ← readString rest
    match skipSpace rest with
    | ':' :: rest => (value rest).map fun (v, rest) => (.mk name v, rest)
    | _ => none
  | _ => none

/-- A value at the front of a text, and the rest. -/
def readValue : Nat → List Char → Option (JsonValue × List Char)
  | 0, _ => none
  | fuel + 1, cs =>
    match skipSpace cs with
    | [] => none
    | '"' :: rest => (readString rest).map fun (s, rest) => (.text s, rest)
    | '[' :: rest => (readList (readValue fuel) ']' fuel rest).map fun (vs, rest) => (.array vs, rest)
    | '\x7b' :: rest =>
      (readList (readField (readValue fuel)) '\x7d' fuel rest).map fun (fs, rest) => (.object fs, rest)
    | c :: cs =>
      if c = 't' then (readWord "true" (c :: cs)).map (.bool true, ·)
      else if c = 'f' then (readWord "false" (c :: cs)).map (.bool false, ·)
      else if c = 'n' then (readWord "null" (c :: cs)).map (.null, ·)
      else (readNumber (c :: cs)).map fun (s, rest) => (.number s, rest)

/-- The value that a text spells. -/
def parse? (s : String) : Option JsonValue := do
  let cs := s.toList
  let (v, rest) ← readValue (cs.length + 1) cs
  if (skipSpace rest).isEmpty then some v else none

end MiniPascal.JsonValue
