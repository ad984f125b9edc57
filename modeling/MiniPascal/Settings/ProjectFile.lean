import MiniPascal.Lower.Table
import MiniPascal.Settings.Basic
import MiniPascal.Toml.Document

/-!
# Project files

A project file holds settings in TOML: four texts, and two tables that turn warnings and features on
and off.
-/

namespace MiniPascal

/-- The settings of a project file.  A text that is missing is empty. -/
structure ProjectFile where
  backend : String := ""
  target : String := ""
  output : String := ""
  dialect : String := ""
  warnings : Option (List (String × Bool)) := none
  features : Option (List (String × Bool)) := none

/-! ## Reading -/

/-- Why a value means nothing, whatever is wanted. -/
inductive ValueFault where
  | time (text : String) (fault : Toml.TimeFault)
  | tooLarge (text : String)

def ValueFault.message : ValueFault → String
  | time text fault => "parsing time \"" ++ text ++ "\": " ++ fault.message
  | tooLarge text => "strconv.ParseFloat: parsing \"" ++ text ++ "\": value out of range"

inductive ProjectError where
  | toml (e : Toml.Error)
  | unknownField (line : Nat) (key : String)
  /-- A field of the wrong type. -/
  | wrongType (line : Nat) (field : String) (found : String) (wanted : String)
  /-- A value of the wrong type within a table. -/
  | wrongElement (line : Nat) (found : String)
  /-- A field whose value means nothing. -/
  | badField (line : Nat) (field : String) (fault : ValueFault)
  /-- A value within a table that means nothing. -/
  | badElement (line : Nat) (fault : ValueFault)
  /-- A table where there should be a text or a truth value. -/
  | unwantedTable (line : Nat) (wanted : String)

namespace ProjectError

/-- What is wanted instead of an array. -/
def needed (found : String) : String :=
  if found = "array" ∨ found = "array table" then " (need slice)" else ""

def message : ProjectError → String
  | toml e => "line " ++ toString e.line ++ ": " ++ e.cause.message
  | unknownField line key =>
    "line " ++ toString line ++ ": field '" ++ key ++ "' is not defined in config.FileConfig"
  | wrongType line field found wanted =>
    "line " ++ toString line ++ ": (config.FileConfig." ++ field ++ ") cannot unmarshal TOML " ++
      found ++ " into " ++ wanted ++ needed found
  | wrongElement line found =>
    "line " ++ toString line ++ ": cannot unmarshal TOML " ++ found ++ " into bool" ++ needed found
  | badField line field fault =>
    "line " ++ toString line ++ ": (config.FileConfig." ++ field ++ ") " ++ fault.message
  | badElement line fault => "line " ++ toString line ++ ": " ++ fault.message
  | unwantedTable line wanted =>
    "line " ++ toString line ++ ": cannot unmarshal TOML table into " ++ wanted ++
      " (need struct or map)"

end ProjectError

namespace ProjectFile

open Toml (Node)

/-- What a value is. -/
def kindOf : Toml.Value → String
  | .integer => "integer"
  | .float _ => "float"
  | .boolean _ => "boolean"
  | .datetime _ => "datetime"
  | .text _ _ => "string"
  | .array _ => "array"
  | .inline _ _ => "table"

/-- Why a value means nothing.  Integers are not looked into, nor are the elements of arrays. -/
def faultOf? : Toml.Value → Option ValueFault
  | .float d => if d.isTooLarge then some (.tooLarge d.text) else none
  | .datetime d => d.fault?.map (.time d.text)
  | _ => none

/-- The error of a field whose value is not of the type that is wanted. -/
def fieldError (line : Nat) (field : String) (v : Toml.Value) (wanted : String) : ProjectError :=
  match faultOf? v with
  | some fault => .badField line field fault
  | none => .wrongType line field (kindOf v) wanted

/-- The error of a value within a table that is no truth value. -/
def elementError (line : Nat) (v : Toml.Value) : ProjectError :=
  match faultOf? v with
  | some fault => .badElement line fault
  | none => .wrongElement line (kindOf v)

/-- The line of the first element of an array of tables. -/
def firstLine (last : Toml.Table) (others : List Toml.Table) : Nat := (others.getLastD last).line

def readText (field : String) : Node → Except ProjectError String
  | .value (.text s _) _ => .ok (s.getD "")
  | .value v line => .error (fieldError line field v "string")
  | .table t => .error (.unwantedTable t.line "string")
  | .tables t ts => .error (.wrongType (firstLine t ts) field "array table" "string")

/-- The truth value of a switch. -/
def readSwitch : Node → Except ProjectError Bool
  | .value (.boolean b) _ => .ok b
  | .value v line => .error (elementError line v)
  | .table t => .error (.unwantedTable t.line "bool")
  | .tables t ts => .error (.wrongElement (firstLine t ts) "array table")

/-- Reads an entry of a table of switches. -/
def readEntry (s : Table Bool) (e : String × Node) : Except ProjectError (Table Bool) :=
  return s.insert e.1 (← readSwitch e.2)

/-- The switches of a table, each of them once. -/
def readSwitches (field : String) : Node → Except ProjectError (List (String × Bool))
  | .value v line => .error (fieldError line field v "map[string]bool")
  | .tables t ts => .error (.wrongType (firstLine t ts) field "array table" "map[string]bool")
  | .table t => return (← t.fields.foldlM readEntry {}).entries

def fieldLine : Node → Nat
  | .value _ line => line
  | .table t => t.line
  | .tables t ts => firstLine t ts

def readField (p : ProjectFile) : String × Node → Except ProjectError ProjectFile
  | ("backend", n) => return { p with backend := ← readText "Backend" n }
  | ("target", n) => return { p with target := ← readText "Target" n }
  | ("output", n) => return { p with output := ← readText "Output" n }
  | ("std", n) => return { p with dialect := ← readText "Std" n }
  | ("warnings", n) => return { p with warnings := some (← readSwitches "Warnings" n) }
  | ("features", n) => return { p with features := some (← readSwitches "Features" n) }
  | (key, n) => .error (.unknownField (fieldLine n) key)

def read (source : String) : Except ProjectError ProjectFile :=
  match Toml.load source with
  | .error e => .error (.toml e)
  | .ok t => t.fields.foldlM readField {}

end ProjectFile

/-! ## Applying -/

namespace Settings

/-- The entries of a table of switches that name no switch, each with the word for its family. -/
def unknownNames {α : Type} (family : String) (ofName? : String → Option α)
    (entries : List (String × Bool)) : List String :=
  (entries.filter fun e => (ofName? e.1).isNone).map fun e => family ++ " '" ++ e.1 ++ "'"

/-- A setting of switches with those turned that a table names. -/
def layer {α : Type} [DecidableEq α] (ofName? : String → Option α) (s : Switches α)
    (entries : List (String × Bool)) : Switches α :=
  entries.foldl (fun s e => match ofName? e.1 with
    | some a => s.set a e.2
    | none => s) s

/-- Sets the switches of a project file, and complains about the names that it does not know. -/
def applySwitches (c : Settings) (p : ProjectFile) : Settings × Option SettingError :=
  let warnings := p.warnings.getD []
  let features := p.features.getD []
  let unknown := unknownNames "warning" Warning.ofName? warnings ++
    unknownNames "feature" Feature.ofName? features
  ({ c with
      warnings := layer Warning.ofName? c.warnings warnings
      features := layer Feature.ofName? c.features features },
    if unknown.isEmpty then none else some (.unknownSwitches (unknown.mergeSort (· ≤ ·))))

/-- Applies a project file: the dialect, the backend, the output and the target where they are given,
then the switches.  What comes before an error stays. -/
def applyFile (c : Settings) (p : ProjectFile) : Settings × Option SettingError :=
  match c.chooseDialect p.dialect with
  | .error e => (c, some e)
  | .ok c =>
    match c.chooseBackend p.backend with
    | .error e => (c, some e)
    | .ok c =>
      let c := c.chooseOutput p.output
      let c := if p.target.isEmpty then c else { c with target := p.target }
      c.applySwitches p

end Settings

end MiniPascal
