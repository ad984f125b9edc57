import MiniPascal.Flag.Basic

/-!
# Reading a command line

A flag is spelled `--name`, `-name`, or `-s` with its shorthand, and takes its value behind an equals
sign, directly behind the shorthand, or from the next argument.  Truth values need none.  Everything
else is an argument, and everything behind `--` is one whatever it looks like.
-/

namespace MiniPascal.FlagSet

/-- What one argument of a command line is. -/
inductive Reading where
  | positional
  /-- The mark behind which there are no flags. -/
  | ending
  | setting (name value : String)
  /-- A flag whose value is the next argument; `shown` is how it is named if there is none. -/
  | pending (name shown : String)
  | refused (e : FlagError)

/-- The text before the first equals sign, and the text behind it if there is one. -/
def cutEquals : List Char → List Char × Option (List Char)
  | [] => ([], none)
  | c :: cs =>
    if c = '=' then ([], some cs)
    else
      let (name, value) := cutEquals cs
      (c :: name, value)

/-- An argument with a shorthand: its first byte decides, so a letter outside ASCII is none. -/
def readShorthand (fs : FlagSet) (letter : Char) (rest : List Char) : Reading :=
  let shorthand := String.singleton letter
  match if letter.toNat < 0x80 then fs.findShorthand? shorthand else none with
  | none => .refused (.unknown (String.ofList ('-' :: letter :: rest)))
  | some f =>
    if f.value.isTruth then .setting f.name ""
    else if rest.isEmpty then .pending f.name ("-" ++ shorthand)
    else .setting f.name (String.ofList rest)

def read (fs : FlagSet) (arg : String) : Reading :=
  match arg.toList with
  | ['-', '-'] => .ending
  | '-' :: c :: cs =>
    let isLong := c == '-'
    let (name, value) := cutEquals (if isLong then cs else c :: cs)
    let name := String.ofList name
    match fs.find? name, value with
    | some f, some v => .setting f.name (String.ofList v)
    | some f, none => if f.value.isTruth then .setting f.name "" else .pending f.name arg
    | none, _ =>
      if isLong then .refused (.unknown ("--" ++ name)) else fs.readShorthand c cs
  | _ => .positional

/-- Reads arguments from left to right, and stops at the first that is refused. -/
def parseFrom (fs : FlagSet) : List String → FlagSet × Option FlagError
  | [] => (fs, none)
  | arg :: rest =>
    match fs.read arg, rest with
    | .positional, rest => parseFrom { fs with args := fs.args ++ [arg] } rest
    | .ending, rest => ({ fs with args := fs.args ++ rest }, none)
    | .setting name value, rest =>
      match fs.set name value with
      | .ok fs => fs.parseFrom rest
      | .error e => (fs, some e)
    | .pending _ shown, [] => (fs, some (.missingArgument shown))
    | .pending name _, value :: rest =>
      match fs.set name value with
      | .ok fs => fs.parseFrom rest
      | .error e => (fs, some e)
    | .refused e, _ => (fs, some e)

/-- Reads a command line.  The flags before an argument that is refused keep their settings. -/
def parse (fs : FlagSet) (args : List String) : FlagSet × Option FlagError :=
  parseFrom { fs with args := [] } args

end MiniPascal.FlagSet
