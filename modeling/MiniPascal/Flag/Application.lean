import MiniPascal.Flag.Parse
import MiniPascal.Text.Wrap

/-!
# Applications

A command with flags, its usage message and its help page.  The help page is laid out for a given
width: a column of names, the usage of each wrapped beside it, and the default on the right.
-/

namespace MiniPascal

structure Application where
  name : String
  synopsis : String := ""
  description : String := ""
  authors : List String := []
  repository : String := ""
  flags : FlagSet := {}

namespace Application

def pageWidth : Nat := 80

def usage (a : Application) : String :=
  "Usage: " ++ a.name ++ " " ++ a.synopsis ++ "\nRun '" ++ a.name ++
    " --help' for all available options and flags.\n"

/-! ## The help page -/

def flagText (f : Flag) : String :=
  (if f.shorthand.isEmpty then "" else "-" ++ f.shorthand ++ ", ") ++ "--" ++ f.name ++
    (if f.value.isTruth || f.expected.isEmpty then "" else " <" ++ f.expected ++ ">")

/-- The flags that belong to no group, sorted by name. -/
def options (fs : FlagSet) : List Flag :=
  let grouped := fs.groups.flatMap fun g => g.entries.flatMap fun e => [g.enabling e, g.disabling e]
  (fs.flags.filter fun f => !grouped.contains f.name).mergeSort fun x y => x.name ≤ y.name

def enableText (g : FlagGroup) : String := "-" ++ g.lead ++ "<" ++ g.noun ++ ">"

def disableText (g : FlagGroup) : String := "-" ++ g.lead ++ "no-<" ++ g.noun ++ ">"

def nameWidth (fs : FlagSet) : Nat :=
  let names := (options fs).map flagText ++
    fs.groups.flatMap fun g => disableText g :: g.entries.map (·.name)
  (names.map String.utf8ByteSize).foldl max 0

/-- What stands before every line of an entry. -/
def margin : String := "        "

/-- An entry of the page: a name, its usage, and what stands on the right. -/
def entry (left : Nat) (name usage right : String) : String :=
  let width := max 10 (pageWidth - margin.length - left - 1 - right.utf8ByteSize - 2)
  let lines := Text.wrap width usage
  let first := lines.headD ""
  margin ++ Text.padRight left name ++ " " ++
    (if right.isEmpty then first else Text.padRight width first ++ "  " ++ right) ++ "\n" ++
    String.join (lines.tail.map fun line => margin ++ Text.padRight left "" ++ " " ++ line ++ "\n")

/-- The entry of a flag, with its default. -/
def optionEntry (left : Nat) (f : Flag) : String :=
  entry left (flagText f) f.usage
    (if f.value.isTruth || f.initial.isEmpty then "" else "|" ++ f.initial ++ "|")

/-- The section of a group, its switches sorted by name. -/
def groupSection (left : Nat) (g : FlagGroup) : String :=
  "\n    " ++ g.name ++ "\n" ++
    entry left (enableText g) ("Enable a specific " ++ g.noun) "" ++
    entry left (disableText g) ("Disable a specific " ++ g.noun) "" ++
    String.join ((g.entries.mergeSort fun x y => x.name ≤ y.name).map fun e =>
      entry left e.name e.usage (if e.isDefault then "|x|" else "|-|"))

def help (a : Application) : String :=
  let left := nameWidth a.flags
  "\n    " ++ a.name ++ " " ++ a.synopsis ++ "\n" ++
    (if a.description.isEmpty then ""
      else "\n    Description\n" ++
        String.join ((Text.wrap (pageWidth - margin.length) a.description).map fun line =>
          margin ++ line ++ "\n")) ++
    (if a.authors.isEmpty then "" else "\n    Authors: " ++ ", ".intercalate a.authors ++ "\n") ++
    (if a.repository.isEmpty then ""
      else "    For more details refer to " ++ a.repository ++ "\n") ++
    (if (options a.flags).isEmpty then ""
      else "\n    Options\n" ++ String.join ((options a.flags).map (optionEntry left))) ++
    String.join (a.flags.groups.map (groupSection left))

/-! ## Running -/

/-- What a command line asks for. -/
inductive Request where
  /-- The flag for help could not be defined. -/
  | misdefined (e : DefinitionError)
  | refused (e : FlagError)
  | help
  /-- The work itself, on the arguments that are no flags. -/
  | action (args : List String)

/-- Adds the flag for help and reads a command line. -/
def run (a : Application) (args : List String) : Application × Request :=
  match a.flags.define (.truth "help" "h" false "Display this information") with
  | (fs, some e) => ({ a with flags := fs }, .misdefined e)
  | (fs, none) =>
    match fs.parse args with
    | (fs, some e) => ({ a with flags := fs }, .refused e)
    | (fs, none) =>
      ({ a with flags := fs }, if fs.isOn "help" then .help else .action fs.args)

/-- What is said about a command line that is refused. -/
def complaint (a : Application) (e : FlagError) : String := e.message ++ "\n" ++ a.usage

end Application

end MiniPascal
