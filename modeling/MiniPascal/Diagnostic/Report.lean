import MiniPascal.Diagnostic.Failure
import MiniPascal.Switch.Basic

/-!
# Reports

A diagnostic is shown with its file, the source line it is about, and a caret under the token.
Warnings are shown in the same way.  Labels and carets may be coloured.
-/

namespace MiniPascal

/-- A source text that diagnostics can quote. -/
structure SourceFile where
  name : String
  content : String

/-- How reports are drawn, and the files they quote. -/
structure Display where
  files : List SourceFile := []
  color : Bool := false

namespace Display

/-- A text between terminal codes, if the display has colours. -/
def paint (v : Display) (code text : String) : String :=
  if v.color then "\x1b[" ++ code ++ "m" ++ text ++ "\x1b[0m" else text

def file? (v : Display) (t : Token) : Option SourceFile :=
  if t.file < 0 then none else v.files[t.file.toNat]?

/-- The lines of a text, without their line breaks; there is at least one. -/
def lines : List Char → List (List Char)
  | [] => [[]]
  | c :: cs =>
    if c = '\n' then [] :: lines cs
    else
      match lines cs with
      | [] => [[c]]
      | l :: ls => (c :: l) :: ls

/-- The line of a given number, counted from 1; the first or last line for a number outside. -/
def sourceLine (content : String) (line : Int) : String :=
  let ls := lines content.toList
  String.ofList ((ls[min (line - 1).toNat (ls.length - 1)]?).getD [])

/-- The underline of a token: a caret, and tildes for the rest of it. -/
def underline (length : Int) : String :=
  "^".pushn '~' (length - 1).toNat

/-- The source line of a token and the underline below it, if the token has a place in a file. -/
def excerpt (v : Display) (t : Token) : String :=
  match v.file? t with
  | none => ""
  | some file =>
    if t.line = 0 then ""
    else
      "  " ++ sourceLine file.content t.line ++ "\n" ++
        "".pushn ' ' (2 + (t.column - 1).toNat) ++ v.paint "32" (underline t.length) ++ "\n"

/-- The place of a token: file, line and column. -/
def place (v : Display) (t : Token) : String :=
  let name := match v.file? t with
    | some file => file.name
    | none => "unknown"
  name ++ ":" ++ toString t.line ++ ":" ++ toString t.column ++ ": "

def reportPart (v : Display) (part : Failure) : String :=
  match part.diagnostic? with
  | none => v.paint "31;1" "error:" ++ " " ++ part.text ++ "\n"
  | some d =>
    v.place d.tok ++ v.paint "31;1" (d.category.label ++ ":") ++ " " ++ d.message ++ "\n" ++
      v.excerpt d.tok

/-- A failure, part by part. -/
def report (v : Display) (f : Failure) : String :=
  String.join (f.parts.map v.reportPart)

/-- A line about the progress of the compiler, printed only on request. -/
def info (verbose : Bool) (text : String) : String :=
  if verbose then "pasc: info: " ++ text ++ "\n" else ""

end Display

/-! ## Warnings -/

structure Remark where
  warning : Warning
  tok : Token
  message : String

namespace Remark

def render (v : Display) (r : Remark) : String :=
  v.place r.tok ++ v.paint "33;1" "warning:" ++ " " ++ r.message ++ " [-W" ++ r.warning.name ++
    "]\n" ++ v.excerpt r.tok

/-- The warnings that are switched on, in order. -/
def enabled (on : Switches Warning) (rs : List Remark) : List Remark :=
  rs.filter fun r => on r.warning

def renderAll (v : Display) (on : Switches Warning) (rs : List Remark) : String :=
  String.join ((enabled on rs).map (render v))

end Remark

end MiniPascal
