import MiniPascal.Command.Options
import MiniPascal.Compile
import MiniPascal.Tree.Dump
import MiniPascal.Tree.Format

/-!
# Running the compiler

What the compiler prints and which tools it runs, as a function of the command line and of what it
finds: files, tools and the host.
-/

namespace MiniPascal.Command

/-! ## The surroundings -/

structure ToolExit where
  code : Int := 0
  stderr : String := ""

/-- What the compiler finds. -/
structure World where
  read : String → Except FileError String
  /-- The tools that can be run. -/
  tool? : String → Option (List String → ToolExit)
  /-- The path of a new temporary file whose name has a given end. -/
  tempFile : String → String
  system : String
  arch : String
  color : Bool := false

/-- What the compiler has done: the texts that it has printed and the commands that it has run. -/
structure Console where
  stdout : String := ""
  stderr : String := ""
  commands : List (List String) := []

/-- A step of the compiler, which prints, runs tools and may fail. -/
abbrev Action := ExceptT Failure (StateM Console)

def print (text : String) : Action Unit := modify fun k => { k with stdout := k.stdout ++ text }

def printError (text : String) : Action Unit := modify fun k => { k with stderr := k.stderr ++ text }

def ofResult {α : Type} (r : Except Failure α) : Action α := ExceptT.mk (pure r)

/-- Tells about progress, if that is asked for. -/
def tell (c : Settings) (text : String) : Action Unit := printError (Display.info c.verbose text)

/-! ## Settings -/

inductive ConfigureError where
  | load (path : String) (e : LoadError)
  | setting (e : SettingError)

def ConfigureError.message : ConfigureError → String
  | load path e => "config " ++ path ++ ": " ++ e.message
  | setting e => e.message

/-- The settings that the options ask for, with what is said about them.  A project file that is loaded is
mentioned even if the options are refused. -/
def configure (w : World) (o : Options) : Except ConfigureError Settings × String :=
  let base : Settings := { verbose := o.verbose }
  let finish (c : Settings) (said : String) : Except ConfigureError Settings × String :=
    match o.override c with
    | .error e => (.error (.setting e), said)
    | .ok c =>
      let (c, note) := c.setTarget w.system w.arch (o.chosenTarget c)
      (.ok c, said ++ note)
  if o.config.isEmpty then finish base ""
  else
    let loaded := base.load o.config (w.read o.config)
    match loaded.error with
    | some e => (.error (.load o.config e), "")
    | none => finish loaded.settings (Display.info o.verbose ("loaded settings from " ++ o.config))

/-! ## Objects -/

def sourceEnd : Backend → String
  | .qbe => ".s"
  | .llvm => ".ll"

def objectCommand (b : Backend) (input output : String) : List String :=
  match b with
  | .qbe => ["cc", "-c", "-x", "assembler", "-o", output, input]
  | .llvm => ["clang", "-c", "-x", "ir", "-o", output, input]

def linkCommand (executable object : String) : List String := ["cc", "-o", executable, object]

def runTool (w : World) (c : Settings) (name : String) (args : List String) : Action Unit := do
  tell c ("running " ++ " ".intercalate (name :: args))
  match w.tool? name with
  | none =>
    throw (.plain (name ++ " not found in PATH: exec: " ++ Text.quote name ++
      ": executable file not found in $PATH"))
  | some tool =>
    modify fun k => { k with commands := k.commands ++ [name :: args] }
    let e := tool args
    if e.code ≠ 0 then
      throw (.plain (name ++ " failed: exit status " ++ toString e.code ++ "\n" ++ e.stderr))

/-- Runs a command, which has the name of a tool at its head. -/
def runCommand (w : World) (c : Settings) (command : List String) : Action Unit :=
  match command with
  | [] => return
  | name :: args => runTool w c name args

/-- Checks that a backend can make machine code for the target. -/
def checkTarget (b : Backend) (c : Settings) (text : String) : Except Failure Unit :=
  if b = .qbe ∧ ¬ Settings.knownTargets.contains c.target then
    .error (.plain ("\n--- QBE Compilation Failed ---\nGenerated IR:\n" ++ text ++
      "\n\nlibqbe error: unknown/unsupported target: " ++ Text.quote c.target))
  else .ok ()

def emitObject (w : World) (c : Settings) (b : Backend) (p : Ir.Program) : Action Unit := do
  let text ← ofResult (b.render p)
  ofResult (checkTarget b c text)
  runCommand w c (objectCommand b (w.tempFile (sourceEnd b)) c.output)

/-! ## Compiling -/

/-- How reports about a file are drawn. -/
def display (w : World) (path source : String) : Display :=
  { files := [⟨path, source⟩], color := w.color }

/-- Makes code of a tree, prints it and makes an object of it. -/
def generate (w : World) (c : Settings) (o : Options) (v : Display) (t : Tree) : Action Unit := do
  tell c "lowering to IR"
  let lowered := lowerTree c t
  printError (String.join (lowered.remarks.map (Remark.render v)))
  let p ← ofResult lowered.result
  let b ← ofResult (Backend.select c.backend)
  if !o.quiet then print (← ofResult (b.render p))
  tell c ("writing " ++ c.output ++ " with the " ++ b.name ++ " backend (target " ++ c.target ++ ")")
  emitObject w c b p
  if !o.link.isEmpty then runCommand w c (linkCommand o.link c.output)

def compileText (w : World) (c : Settings) (o : Options) (path source : String) : Action Unit := do
  tell c ("parsing " ++ path ++ " (std " ++ c.dialect ++ ")")
  let t ← ofResult (parseSource c source)
  if o.dumpTree then print (t.dump ++ "\n")
  else if o.dumpFormat then print (t.format ++ "\n")
  else generate w c o (display w path source) t

/-- Compiles a file, and reports why that fails.  The result is the exit code. -/
def compileFile (w : World) (c : Settings) (o : Options) (path : String) : StateM Console Nat := do
  let (action, v) : Action Unit × Display := match w.read path with
    | .error e =>
      (throw (.context ("could not read file '" ++ path ++ "'") (.plain e.message)), { color := w.color })
    | .ok source => (compileText w c o path source, display w path source)
  match ← action.run with
  | .ok () => return 0
  | .error f =>
    modify fun k => { k with stdout := k.stdout ++ "Error while compiling " ++ path ++ "\n" ++ v.report f }
    return 2

/-- Does the work of the compiler on its arguments.  The result is the exit code. -/
def perform (w : World) (o : Options) (args : List String) : StateM Console Nat := do
  match args with
  | [path] =>
    let (result, said) := configure w o
    modify fun k => { k with stderr := k.stderr ++ said }
    match result with
    | .error e =>
      modify fun k => { k with stderr := k.stderr ++ "pasc: " ++ e.message ++ "\n" }
      return 1
    | .ok c => compileFile w c o path
  | _ =>
    modify fun k => { k with stdout := k.stdout ++ application.usage }
    return 1

/-- Runs the compiler on a command line: its exit code and what it has done. -/
def run (w : World) (args : List String) : Nat × Console :=
  match application.run args with
  | (_, .misdefined _) => (1, {})
  | (a, .refused e) => (1, { stderr := a.complaint e })
  | (a, .help) => (0, { stdout := a.help })
  | (a, .action args) => (perform w (.ofFlags a.flags) args).run {}

/-- The files that a command line makes the compiler read. -/
def paths (args : List String) : List String :=
  match application.run args with
  | (a, .action args) => (Options.ofFlags a.flags).config :: args
  | _ => []

end MiniPascal.Command
