/-!
# White space

The characters that separate words and tokens, and the words of a text.

* `Text.isSpace` is the Unicode property `White_Space`.
* `Text.fields` cuts a text at runs of white space; no field is empty.
-/

namespace MiniPascal.Text

/-- White space: the ASCII controls from tab to carriage return, the space, the two Latin-1
separators, and the separators of the general planes. -/
def isSpace (c : Char) : Bool :=
  let n := c.toNat
  (9 ≤ n && n ≤ 13) || n == 0x20 || n == 0x85 || n == 0xA0 || n == 0x1680 ||
    (0x2000 ≤ n && n ≤ 0x200A) || n == 0x2028 || n == 0x2029 || n == 0x202F ||
    n == 0x205F || n == 0x3000

/-- Adds the word read so far, kept in reverse, unless it is empty. -/
def closeField (word : List Char) (rest : List String) : List String :=
  if word.isEmpty then rest else String.ofList word.reverse :: rest

/-- The fields of `cs`, the first of them continuing the reversed word `word`. -/
def fieldsFrom (word : List Char) : List Char → List String
  | [] => closeField word []
  | c :: cs => if isSpace c then closeField word (fieldsFrom [] cs) else fieldsFrom (c :: word) cs

/-- The maximal runs of characters that are no white space, in order. -/
def fields (s : String) : List String :=
  fieldsFrom [] s.toList

end MiniPascal.Text
