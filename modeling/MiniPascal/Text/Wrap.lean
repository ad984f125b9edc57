import MiniPascal.Text.Space

/-!
# Wrapped text

The words of a text are laid out in lines, as many on each as fit.  Widths count bytes of UTF-8.
-/

namespace MiniPascal.Text

/-- Lays out words behind the line `line`, which is never empty.  A word that would make the line
longer than `width` starts a new one. -/
def wrapFrom (width : Nat) (line : String) : List String → List String
  | [] => [line]
  | word :: words =>
    if width < line.utf8ByteSize + 1 + word.utf8ByteSize then line :: wrapFrom width word words
    else wrapFrom width (line ++ " " ++ word) words

/-- The lines of a text of a given width.  A word that is longer than a line has one of its own, and
without any width the text is left as it is. -/
def wrap (width : Nat) (text : String) : List String :=
  if width = 0 then [text]
  else
    match fields text with
    | [] => []
    | word :: words => wrapFrom width word words

/-- A text with blanks behind it, at least `width` characters long. -/
def padRight (width : Nat) (text : String) : String := text.pushn ' ' (width - text.length)

end MiniPascal.Text
