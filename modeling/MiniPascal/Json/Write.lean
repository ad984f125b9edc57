import MiniPascal.Json.Basic
import MiniPascal.Text.Quoted

/-!
# Writing JSON

Every field and element stands on a line of its own, two blanks further to the right than what it belongs
to.  In strings the characters that mean something in HTML, and the two line separators of Unicode, are
written as escapes.
-/

namespace MiniPascal.JsonValue

/-- A character within a string. -/
def stringChar (c : Char) : List Char :=
  let n := c.toNat
  match c with
  | '"' => ['\\', '"']
  | '\\' => ['\\', '\\']
  | '\n' => ['\\', 'n']
  | '\r' => ['\\', 'r']
  | '\t' => ['\\', 't']
  | _ =>
    if n = 8 then ['\\', 'b']
    else if n = 12 then ['\\', 'f']
    else if n < 0x20 || c = '<' || c = '>' || c = '&' || n = 0x2028 || n = 0x2029 then
      '\\' :: 'u' :: Text.hexDigits 4 n
    else [c]

def stringText (s : String) : String :=
  String.ofList ('"' :: (s.toList.flatMap stringChar ++ ['"']))

/-- The start of a line at a depth. -/
def lineStart (depth : Nat) : String := String.ofList ('\n' :: List.replicate (2 * depth) ' ')

/-- Lines between brackets. -/
def bracketed (left right : String) (depth : Nat) (lines : List String) : String :=
  if lines.isEmpty then left ++ right
  else
    left ++ ",".intercalate (lines.map (lineStart (depth + 1) ++ ·)) ++ lineStart depth ++ right

mutual

def render (depth : Nat) : JsonValue → String
  | .null => "null"
  | .bool b => if b then "true" else "false"
  | .number s => s
  | .text s => stringText s
  | .array elements => bracketed "[" "]" depth (renderAll (depth + 1) elements)
  | .object fields => bracketed "\x7b" "\x7d" depth (renderFields (depth + 1) fields)

def renderAll (depth : Nat) : List JsonValue → List String
  | [] => []
  | v :: vs => v.render depth :: renderAll depth vs

def renderFields (depth : Nat) : List JsonField → List String
  | [] => []
  | .mk name v :: fs => (stringText name ++ ": " ++ v.render depth) :: renderFields depth fs

end

end MiniPascal.JsonValue
