/-!
# Parts of a text

A text cut at every occurrence of a character.  There is one part more than there are occurrences, and
the parts joined by the character are the text again.
-/

namespace MiniPascal.Text

/-- The parts of some characters between the occurrences of a separator. -/
def splitChars (sep : Char) : List Char → List (List Char)
  | [] => [[]]
  | c :: cs =>
    if c = sep then [] :: splitChars sep cs
    else
      match splitChars sep cs with
      | [] => [[c]]
      | part :: parts => (c :: part) :: parts

/-- The parts of a text between the occurrences of a separator. -/
def split (sep : Char) (s : String) : List String := (splitChars sep s.toList).map String.ofList

end MiniPascal.Text
