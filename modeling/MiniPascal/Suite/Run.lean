import MiniPascal.Files.Glob
import MiniPascal.Suite.Digest
import MiniPascal.Suite.Summary

/-!
# Running a suite of tests

Each program of the suite is compiled and run, and what it prints is compared with a golden file beside
it.  A golden file that starts like a message of the compiler expects that the program does not compile.
What a result depends on is condensed to a hash; in a cached run a result that passed is used again
while its hash is the same.
-/

namespace MiniPascal.Suite

/-! ## Commands -/

/-- What came of running a command. -/
inductive Outcome where
  | exited (stdout stderr : String) (code : Int)
  | timedOut (stdout stderr : String)
  /-- The command could not be started. -/
  | failed (reason : String)

def Outcome.execution : Outcome → Execution
  | exited stdout stderr code => { stdout, stderr, exitCode := code }
  | timedOut stdout stderr => { stdout, stderr, exitCode := -1, timedOut := true }
  | failed reason => { stderr := "\nExecution error: " ++ reason, exitCode := -2 }

/-- What the suite runs with: a directory for the programs, and what running a compiler does.  From the
files, the path of the compiler and its arguments come an outcome and perhaps a program, which makes an
outcome from its input. -/
structure Bench where
  tempDir : String
  compile : Files → String → List String → Outcome × Option (String → Outcome)

/-- The choices for a run. -/
structure Options where
  compiler : String := "./pasc"
  compilerArgs : String := ""
  patterns : String := "tests/*.pas"
  skip : String := ""
  report : String := ".test_results.json"
  cached : Bool := false
  update : Bool := false
  verbose : Bool := false

/-! ## Hashes -/

/-- The bytes that stand for a file: its content, or a mark with its name if it is missing. -/
def fileBytes (fs : Files) (path : String) : Except FileError (List UInt8) :=
  match fs.read path with
  | .ok content => .ok content.toUTF8.toList
  | .error e =>
    if e.isMissing then
      .ok ("\x00missing:" ++ Path.base path ++ "\x00").toUTF8.toList
    else .error e

/-- The bytes of several files, one after the other. -/
def allBytes (fs : Files) : List String → Except FileError (List UInt8)
  | [] => .ok []
  | path :: paths => do return (← fileBytes fs path) ++ (← allBytes fs paths)

def inputsHash (fs : Files) (paths : List String) : Except FileError String := do
  return Digest.text (Digest.ofBytes (← allBytes fs paths))

/-! ## Testing a file -/

def goldenPath (file : String) : String := Path.sibling file ".expected"

def inputPath (file : String) : String := Path.sibling file ".in"

/-- The files that a result depends on. -/
def inputPaths (o : Options) (file : String) : List String :=
  [file, goldenPath file, inputPath file, o.compiler]

def compileArgs (o : Options) (binary file : String) : List String :=
  ["-q", "-o", binary ++ ".o", "--link", binary] ++ Text.fields o.compilerArgs ++ [file]

/-- Compiles a program and, if that succeeds, runs it. -/
def compileAndRun (b : Bench) (o : Options) (fs : Files) (file hash input : String) :
    Execution × Option Execution :=
  let binary := Path.join b.tempDir hash
  let (outcome, program) := b.compile fs o.compiler (compileArgs o binary file)
  let compiled := outcome.execution
  if compiled.exitCode ≠ 0 ∨ compiled.timedOut then (compiled, none)
  else
    let ran := match program with
      | some p => p input
      | none => .failed ("fork/exec " ++ binary ++ ": no such file or directory")
    (compiled, some ran.execution)

/-- What a program printed, or its compiler if it did not run. -/
def actual (compiled : Execution) (ran : Option Execution) : String :=
  match ran with
  | some r => r.stdout
  | none => compiled.stdout

/-- How the message of the compiler about a program that does not compile starts. -/
def compileErrorMark : String := "Error while compiling"

/-- A comparison of two texts that differ. -/
def compareTexts (expected found : String) : String :=
  String.join ((Text.split '\n' expected).map fun l => "- " ++ l ++ "\n") ++
    String.join ((Text.split '\n' found).map fun l => "+ " ++ l ++ "\n")

/-- The verdict on the record of a program, with its message and a comparison. -/
def judge (expected : String) (compiled : Execution) (ran : Option Execution) :
    Status × String × String :=
  let expectsError := compileErrorMark.toList.isPrefixOf expected.toList
  if compiled.timedOut then (.fail, "Compiler timed out", "")
  else if expectsError ∧ compiled.exitCode ≠ 2 then
    (.fail, "Expected a compile error, compiler exited with " ++ toString compiled.exitCode, "")
  else if ¬ expectsError ∧ compiled.exitCode ≠ 0 then
    (.fail, "Compiler failed, but the golden file expects success",
      "Compiler STDOUT:\n" ++ compiled.stdout ++ "\nCompiler STDERR:\n" ++ compiled.stderr)
  else if ran.any (·.timedOut) then (.fail, "Program timed out", "")
  else if actual compiled ran ≠ expected then
    (.fail, "Output mismatch", compareTexts expected (actual compiled ran))
  else (.pass, "Output matches", "")

/-- What came of a test: its result, the files after it, and a line for the log. -/
structure Tested where
  result : TestResult
  files : Files
  log : List String := []

/-- The result of an earlier run that can be used again. -/
def reusable? (o : Options) (previous : Report) (file hash : String) : Option TestResult :=
  (previous.find? file).filter fun r => o.cached && r.hash == hash && r.status == .pass

/-- Tests a program whose hash is known. -/
def testHashed (b : Bench) (o : Options) (fs : Files) (file hash : String) : Tested :=
  let input := (fs.read (inputPath file)).toOption.getD ""
  let (compiled, ran) := compileAndRun b o fs file hash input
  let result : TestResult := { file, hash, compile := some compiled, run := ran }
  if o.update then
    match fs.write (goldenPath file) (actual compiled ran) with
    | .error e =>
      ⟨{ result with status := .error, message := "Failed to write golden file: " ++ e.message }, fs, []⟩
    | .ok fs => ⟨{ result with status := .pass, message := "Golden file updated" }, fs, []⟩
  else
    match fs.read (goldenPath file) with
    | .error _ =>
      ⟨{ result with
          status := .skip
          message := "Cannot test without a corresponding .expected golden file" }, fs, []⟩
    | .ok expected =>
      let (status, message, diff) := judge expected compiled ran
      ⟨{ result with status, message, diff }, fs, []⟩

/-- Tests a program, or uses its earlier result again. -/
def testFile (b : Bench) (o : Options) (previous : Report) (fs : Files) (file : String) : Tested :=
  match inputsHash fs (inputPaths o file) with
  | .error e =>
    ⟨{ file, status := .error, message := "Failed to hash test inputs: " ++ e.message }, fs, []⟩
  | .ok hash =>
    match reusable? o previous file hash with
    | some r =>
      ⟨{ r with message := r.message ++ " (cached)" }, fs,
        if o.verbose then ["[" ++ file ++ "] inputs unchanged, reusing cached result"] else []⟩
    | none => testHashed b o fs file hash

/-! ## The suite -/

/-- Tests files in order. -/
def testFiles (b : Bench) (o : Options) (previous : Report) :
    Files → List String → List TestResult × Files × List String
  | fs, [] => ([], fs, [])
  | fs, file :: files =>
    if (Text.fields o.skip).contains file then
      let (rs, fs, log) := testFiles b o previous fs files
      ({ file, status := .skip, message := "Explicitly skipped" } :: rs, fs, log)
    else
      let t := testFile b o previous fs file
      let (rs, fs, log) := testFiles b o previous t.files files
      (t.result :: rs, fs, t.log ++ log)

/-- What came of a run: whether the suite passed, the files after it, what it printed, and its log. -/
structure Finished where
  ok : Bool
  files : Files
  output : String := ""
  log : List String := []

/-- The results of the run before, and what is said if they cannot be read. -/
def previousReport (o : Options) (fs : Files) : Report × List String :=
  match fs.read o.report with
  | .error _ => ([], [])
  | .ok text =>
    match Report.parse? text with
    | some r => (r, [])
    | none =>
      ([], [Summary.paint Summary.yellow "[WARN]" ++ " Could not parse previous results file " ++
        o.report ++ ". Cache will not be used."])

/-- Writes the report of some results, and what is said if that fails. -/
def writeReport (o : Options) (fs : Files) (r : Report) : Files × List String :=
  match fs.write o.report r.text with
  | .ok fs => (fs, [])
  | .error e =>
    (fs, [Summary.paint Summary.red "[ERROR]" ++ " Failed to write JSON report to " ++ o.report ++ ": " ++
      e.message])

/-- Runs a suite; `none` if a pattern is malformed. -/
def run (b : Bench) (o : Options) (fs : Files) : Option Finished := do
  let files ← Glob.expand fs o.patterns
  if files.isEmpty then
    return { ok := true, files := fs, log := ["No test files found matching the pattern(s)."] }
  let (previous, warnings) := previousReport o fs
  let (results, fs, log) := testFiles b o previous fs files
  let results := results.mergeSort fun x y => x.file ≤ y.file
  let report := Report.ofResults results
  let (fs, complaints) := writeReport o fs report
  return { ok := !report.hasFailures, files := fs, output := Summary.render o.verbose results
           log := warnings ++ log ++ complaints }

end MiniPascal.Suite
