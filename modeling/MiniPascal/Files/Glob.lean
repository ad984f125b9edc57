import MiniPascal.Files.Basic
import MiniPascal.Text.Space
import MiniPascal.Text.Utf8

/-!
# Patterns of file names

In a pattern a star stands for any text without slashes, a question mark for one character, and brackets
for one character of a class.  A backslash takes the next character as it is.  Names are compared byte by
byte, and a star may end anywhere in a name, even within a character.  A pattern is taken in parts, which
end before a star; one that is malformed matters only if a name matches all parts before it.
-/

namespace MiniPascal

/-- A part of a pattern that stands for one character or byte. -/
inductive GlobItem where
  | byte (b : UInt8)
  /-- Any character but a slash. -/
  | any
  /-- A character in one of the ranges, or in none of them. -/
  | oneOf (negated : Bool) (ranges : List (Nat × Nat))

/-- A part of a pattern, perhaps behind a star.  Its items are `none` if it is malformed. -/
structure GlobChunk where
  star : Bool
  items : Option (List GlobItem)

namespace Glob

/-! ## Reading patterns -/

abbrev code (c : Char) : UInt8 := UInt8.ofNat c.toNat

/-- The character at the front of some bytes, as a number, and the bytes behind it.  A byte that belongs
to no character stands for the replacement character. -/
def front : List UInt8 → Option (Nat × List UInt8)
  | [] => none
  | b :: bs =>
    match Text.leading? b bs with
    | some (c, n) => some (c.toNat, bs.drop n)
    | none => some (Text.replacement.toNat, bs)

/-- The bytes up to the next star outside brackets, and the rest. -/
def cutChunk (inClass : Bool) : List UInt8 → List UInt8 × List UInt8
  | [] => ([], [])
  | b :: bs =>
    if b = code '\\' then
      match bs with
      | [] => ([b], [])
      | c :: cs =>
        let (chunk, rest) := cutChunk inClass cs
        (b :: c :: chunk, rest)
    else if b = code '*' && !inClass then ([], b :: bs)
    else
      let inClass := if b = code '[' then true else if b = code ']' then false else inClass
      let (chunk, rest) := cutChunk inClass bs
      (b :: chunk, rest)

/-- A character within brackets; something must follow it. -/
def classChar (bs : List UInt8) : Option (Nat × List UInt8) :=
  let take (bs : List UInt8) : Option (Nat × List UInt8) := do
    let (c, rest) ← front bs
    if rest.isEmpty then none else some (c, rest)
  match bs with
  | [] => none
  | b :: rest =>
    if b = code '-' || b = code ']' then none
    else if b = code '\\' then take rest
    else take bs

/-- The ranges of a class up to its bracket; there must be at least one. -/
def classRanges : Nat → List (Nat × Nat) → List UInt8 → Option (List (Nat × Nat) × List UInt8)
  | 0, _, _ => none
  | fuel + 1, ranges, bs =>
    if bs.head? = some (code ']') && !ranges.isEmpty then some (ranges, bs.tail)
    else do
      let (low, rest) ← classChar bs
      let (high, rest) ←
        if rest.head? = some (code '-') then classChar rest.tail else some (low, rest)
      classRanges fuel (ranges ++ [(low, high)]) rest

/-- The items of a part without stars. -/
def readItems : Nat → List UInt8 → Option (List GlobItem)
  | _, [] => some []
  | 0, _ => none
  | fuel + 1, b :: bs =>
    if b = code '[' then do
      let negated := bs.head? = some (code '^')
      let (ranges, rest) ← classRanges (bs.length + 1) [] (if negated then bs.tail else bs)
      return .oneOf negated ranges :: (← readItems fuel rest)
    else if b = code '?' then do return .any :: (← readItems fuel bs)
    else if b = code '\\' then
      match bs with
      | [] => none
      | c :: cs => do return .byte c :: (← readItems fuel cs)
    else do return .byte b :: (← readItems fuel bs)

def readChunks : Nat → List UInt8 → List GlobChunk
  | _, [] => []
  | 0, _ => []
  | fuel + 1, bs =>
    let rest := bs.dropWhile (· = code '*')
    let (chunk, rest') := cutChunk false rest
    ⟨rest.length < bs.length, readItems chunk.length chunk⟩ :: readChunks fuel rest'

/-- A pattern; every part takes at least one of its bytes. -/
def parse (pattern : String) : List GlobChunk :=
  let bs := pattern.toUTF8.toList
  readChunks bs.length bs

/-! ## Matching -/

/-- What is left of a name behind some items, if it starts with them. -/
def matchItems : List GlobItem → List UInt8 → Option (List UInt8)
  | [], name => some name
  | .byte b :: items, c :: name => if b = c then matchItems items name else none
  | .any :: items, c :: name =>
    if c = code '/' then none
    else (front (c :: name)).bind fun (_, rest) => matchItems items rest
  | .oneOf negated ranges :: items, c :: name =>
    (front (c :: name)).bind fun (n, rest) =>
      if (ranges.any fun (low, high) => low ≤ n && n ≤ high) != negated then matchItems items rest
      else none
  | _ :: _, [] => none

/-- The first rest of a name behind some items, which may start anywhere before the next slash.  The items
of the last part must reach the end of the name. -/
def seek (items : List GlobItem) (isLast : Bool) : List UInt8 → Option (List UInt8)
  | [] => none
  | c :: name =>
    if c = code '/' then none
    else
      match matchItems items name with
      | some rest => if isLast && !rest.isEmpty then seek items isLast name else some rest
      | none => seek items isLast name

/-- Whether a name matches the parts of a pattern; `none` if a malformed part is reached. -/
def matchChunks : List GlobChunk → List UInt8 → Option Bool
  | [], name => some name.isEmpty
  | ⟨star, items⟩ :: chunks, name => do
    let items ← items
    if star && items.isEmpty then return !name.contains (code '/')
    let here := (matchItems items name).filter fun rest => rest.isEmpty || !chunks.isEmpty
    match here with
    | some rest => matchChunks chunks rest
    | none =>
      match if star then seek items chunks.isEmpty name else none with
      | some rest => matchChunks chunks rest
      | none => return false

/-- Whether a name matches a pattern; `none` if a malformed part is reached. -/
def isMatch? (pattern : List GlobChunk) (name : String) : Option Bool :=
  matchChunks pattern name.toUTF8.toList

/-! ## Searching -/

/-- Whether a path has characters with a meaning in patterns. -/
def hasMeta (path : String) : Bool := path.toList.any ['*', '?', '[', '\\'].contains

/-- The names in a directory that match a pattern; `none` if a malformed part is reached. -/
def within (fs : Files) (pattern : List GlobChunk) (dir : String) : Option (List String) :=
  match fs.locate dir with
  | .error _ => some []
  | .ok place =>
    if fs.isDirectoryAt place then do
      return (← (fs.names place).filterM (isMatch? pattern)).map (Path.join dir)
    else some []

/-- The directory part of a pattern without its last slash. -/
def dirOf (path : String) : String :=
  if path.isEmpty then "." else if path = "/" then path else String.ofList path.toList.dropLast

/-- The paths that match a pattern with fewer than `depth` slashes; `none` if a malformed part is reached,
also in comparison with the empty name. -/
def search (fs : Files) : Nat → String → Option (List String)
  | 0, _ => none
  | depth + 1, pattern => do
    discard (isMatch? (parse pattern) "")
    if !hasMeta pattern then
      return if fs.contains pattern then [pattern] else []
    let (dir, file) := Path.splitLast pattern
    let dir := dirOf dir
    let chunks := parse file
    if !hasMeta dir then return ← within fs chunks dir
    if dir = pattern then none
    let dirs ← search fs depth dir
    return (← dirs.mapM (within fs chunks)).flatten

/-- The paths that match one of some patterns, which are parted by blanks; each once, and sorted.  `none`
if a malformed part of a pattern is reached. -/
def expand (fs : Files) (patterns : String) : Option (List String) := do
  let found ← (Text.fields patterns).mapM fun p => search fs (p.length + 1) p
  return found.flatten.eraseDups.mergeSort (· ≤ ·)

end Glob

end MiniPascal
