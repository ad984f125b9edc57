import MiniPascal.Switch.Basic

/-!
# Settings

Everything that steers a compilation: the dialect, the warnings, the code generator, the target and
the output file.  A dialect is a name for a setting of all features.
-/

namespace MiniPascal

inductive SettingError where
  | unknownDialect (name : String)
  | unknownBackend (name : String)
  /-- Names of switches that do not exist, each with the word for its family. -/
  | unknownSwitches (entries : List String)

namespace SettingError

def message : SettingError → String
  | unknownDialect name => "unsupported standard '" ++ name ++ "'. Supported: 'mila', 'ext'"
  | unknownBackend name => "unsupported backend '" ++ name ++ "'. Supported: 'qbe', 'llvm'"
  | unknownSwitches entries => "unknown " ++ ", ".intercalate entries

end SettingError

structure Settings where
  features : Switches Feature := Feature.extended
  warnings : Switches Warning := Warning.standard
  dialect : String := "ext"
  backend : String := "qbe"
  arch : String := ""
  target : String := ""
  wordSize : Int := 8
  output : String := "output.o"
  verbose : Bool := false

namespace Settings

def dialectFeatures? : String → Option (Switches Feature)
  | "mila" => some Feature.strict
  | "ext" => some Feature.extended
  | _ => none

/-- Selects a dialect, which sets every feature. -/
def setDialect (c : Settings) (name : String) : Except SettingError Settings :=
  match dialectFeatures? name with
  | some features => .ok { c with features, dialect := name }
  | none => .error (.unknownDialect name)

def setBackend (c : Settings) (name : String) : Except SettingError Settings :=
  if name = "qbe" ∨ name = "llvm" then .ok { c with backend := name }
  else .error (.unknownBackend name)

/-- Selects a dialect if one is named. -/
def chooseDialect (c : Settings) (name : String) : Except SettingError Settings :=
  if name.isEmpty then .ok c else c.setDialect name

/-- Selects a code generator if one is named. -/
def chooseBackend (c : Settings) (name : String) : Except SettingError Settings :=
  if name.isEmpty then .ok c else c.setBackend name

/-- Selects an output file if one is named. -/
def chooseOutput (c : Settings) (path : String) : Settings :=
  if path.isEmpty then c else { c with output := path }

def setFeature (c : Settings) (f : Feature) (on : Bool) : Settings :=
  { c with features := c.features.set f on }

def setWarning (c : Settings) (w : Warning) (on : Bool) : Settings :=
  { c with warnings := c.warnings.set w on }

def setAllWarnings (c : Settings) (on : Bool) : Settings :=
  { c with warnings := fun _ => on }

/-! ## Single switches -/

/-- The text behind a leading `lead`, if it has one. -/
def dropLead? (lead text : List Char) : Option (List Char) :=
  if lead.isPrefixOf text then some (text.drop lead.length) else none

/-- Applies a switch such as `-Wunused` or `-Fno-case-fold`; a switch that does not exist is
`none`.  The leading dash may be missing, and `-Wall` and `-Wno-all` stand for all warnings. -/
def applySwitch? (c : Settings) (flag : String) : Option Settings :=
  let body := (dropLead? ['-'] flag.toList).getD flag.toList
  let named (cs : List Char) : Bool × String :=
    match dropLead? ['n', 'o', '-'] cs with
    | some name => (false, String.ofList name)
    | none => (true, String.ofList cs)
  match body with
  | 'W' :: cs =>
    let (on, name) := named cs
    if name = "all" then some (c.setAllWarnings on)
    else (Warning.ofName? name).map fun w => c.setWarning w on
  | 'F' :: cs =>
    let (on, name) := named cs
    (Feature.ofName? name).map fun f => c.setFeature f on
  | _ => none

/-! ## Targets -/

/-- The target of a host, by operating system and architecture. -/
def hostTarget : String → String → String
  | "darwin", "amd64" => "amd64_apple"
  | "darwin", "arm64" => "arm64_apple"
  | "freebsd", "arm64" => "arm64"
  | "linux", "arm64" => "arm64"
  | "linux", "riscv64" => "rv64"
  | _, _ => "amd64_sysv"

/-- The targets that are known to have 64-bit words. -/
def knownTargets : List String := ["amd64_sysv", "amd64_apple", "arm64", "arm64_apple", "rv64"]

/-- Selects a target, or that of the host if none is named, and what is said about it: any target
is taken to have 64-bit words, with a warning if it is not known. -/
def setTarget (c : Settings) (system arch target : String) : Settings × String :=
  let target := if target.isEmpty then hostTarget system arch else target
  let note :=
    if knownTargets.contains target then ""
    else "pasc: warning: unrecognized QBE target '" ++ target ++ "', assuming a 64-bit target\n"
  ({ c with target, arch, wordSize := 8 }, note)

end Settings

end MiniPascal
