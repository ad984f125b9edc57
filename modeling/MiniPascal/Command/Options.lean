import MiniPascal.Flag.Application
import MiniPascal.Settings.Groups
import MiniPascal.Settings.Load

/-!
# The command line of the compiler

The flags of the compiler, and how they are laid over the settings of a project file: first come the
defaults, then the file, then the command line.
-/

namespace MiniPascal.Command

/-- The flags that belong to no group. -/
def optionFlags : List Flag :=
  [.text "output" "o" "" "Place the object file into <file> (default output.o)." "file",
    .text "backend" "b" "" "Select the code generator: qbe or llvm." "backend",
    .text "target" "t" "" "Set the QBE target ABI (default: host)." "target",
    .text "std" "" "" "Select the dialect: mila or ext." "std",
    .text "config" "" "" "Read settings from a TOML file." "file",
    .text "link" "" "" "Also link the object into the executable <file>." "file",
    .truth "Wall" "" false "Enable all warnings.",
    .truth "dump-ast" "" false "Dump the syntax tree and exit.",
    .truth "dump-ast-sexpr" "" false "Dump the syntax tree as an S-expression and exit.",
    .truth "quiet" "q" false "Do not print the generated IR.",
    .truth "verbose" "v" false "Report each compilation stage on stderr."]

/-- All flags of the compiler. -/
def flagSet : FlagSet := (Settings.addGroups {} (({} : FlagSet).defineAll optionFlags).1).1

def application : Application :=
  { name := "pasc"
    synopsis := "[options] <input-file>"
    description := "A compiler for a small Pascal dialect. Prints the generated IR and writes a " ++
      "native object file."
    authors := ["Matous Kozak"]
    repository := "<https://github.com/matouskozak/pascal-frontend>"
    flags := flagSet }

/-- What was asked for on the command line.  A text that was not given is empty. -/
structure Options where
  output : String := ""
  backend : String := ""
  target : String := ""
  dialect : String := ""
  config : String := ""
  link : String := ""
  allWarnings : Bool := false
  dumpTree : Bool := false
  dumpFormat : Bool := false
  quiet : Bool := false
  verbose : Bool := false
  /-- The flags, with the switches for warnings and features. -/
  switches : FlagSet := {}

namespace Options

/-- The options that flags hold. -/
def ofFlags (fs : FlagSet) : Options :=
  { output := fs.textOf "output"
    backend := fs.textOf "backend"
    target := fs.textOf "target"
    dialect := fs.textOf "std"
    config := fs.textOf "config"
    link := fs.textOf "link"
    allWarnings := fs.isOn "Wall"
    dumpTree := fs.isOn "dump-ast"
    dumpFormat := fs.isOn "dump-ast-sexpr"
    quiet := fs.isOn "quiet"
    verbose := fs.isOn "verbose"
    switches := fs }

/-- Lays the options over settings, all but the target. -/
def override (o : Options) (c : Settings) : Except SettingError Settings := do
  let c ← c.chooseDialect o.dialect
  let c ← c.chooseBackend o.backend
  let c := c.chooseOutput o.output
  let c := if o.allWarnings then c.setAllWarnings true else c
  return c.applyGroups o.switches

/-- The target that is asked for: that of the options, or else that of the settings. -/
def chosenTarget (o : Options) (c : Settings) : String :=
  if o.target.isEmpty then c.target else o.target

end Options

end MiniPascal.Command
