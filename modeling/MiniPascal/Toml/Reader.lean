/-!
# Readers

A reader takes characters from the front of a text or fails.  When one fails another may start again
from the same place.  How far any complete item was read is remembered all the same, because that is
where a text that cannot be read is said to be wrong.
-/

namespace MiniPascal.Toml

/-- What is left of a text, and the line. -/
structure Place where
  rest : List Char
  line : Nat := 1

/-- A reader.  The number is the least that was left of the text behind a complete item. -/
abbrev Reader := StateT Place (OptionT (StateM Nat))

namespace Reader

variable {α : Type}

/-- Notes that a complete item ends here. -/
def reached (left : Nat) : Reader Unit := modifyThe Nat (min left)

/-- Reads a complete item.  One without characters does not count. -/
def item (r : Reader α) : Reader α := do
  let before := (← get).rest.length
  let a ← r
  let left := (← get).rest.length
  if left < before then reached left
  return a

/-- Reads a character of a class. -/
def one (p : Char → Bool) : Reader Char := do
  let here ← get
  match here.rest with
  | c :: cs =>
    if p c then
      set { here with rest := cs }
      return c
    else failure
  | [] => failure

/-- Reads as many characters of a class as there are. -/
def span (p : Char → Bool) : Reader (List Char) := do
  let here ← get
  set { here with rest := here.rest.dropWhile p }
  return here.rest.takeWhile p

/-- Reads a fixed text. -/
def word (s : String) : Reader Unit := do
  let here ← get
  if s.toList.isPrefixOf here.rest then set { here with rest := here.rest.drop s.length }
  else failure

/-- Reads something that may be missing. -/
def maybe (r : Reader α) : Reader (Option α) := (some <$> r) <|> pure none

/-- Reads something at most `n` times. -/
def upTo (r : Reader α) : Nat → Reader (List α)
  | 0 => pure []
  | n + 1 => do
    match ← maybe r with
    | none => return []
    | some a => return a :: (← upTo r n)

/-- Reads something as often as possible; every time some character must be taken. -/
def many (r : Reader α) : Reader (List α) := do upTo r (← get).rest.length

/-- Reads something once and then as often as possible. -/
def atLeastOne (r : Reader α) : Reader (List α) := do return (← r) :: (← many r)

/-- Succeeds without taking anything where the other reader fails. -/
def absent (r : Reader α) : Reader Unit := do
  let here ← get
  match ← maybe r with
  | none => set here
  | some _ => failure

def line : Reader Nat := return (← get).line

/-- The text that a reader takes. -/
def textOf (r : Reader α) : Reader (List Char × α) := do
  let before := (← get).rest
  let a ← r
  let left := (← get).rest.length
  return (before.take (before.length - left), a)

end Reader

end MiniPascal.Toml
