import MiniPascal.Json.Read
import MiniPascal.Json.Write

/-!
# Test results

What came of testing a program, and the report that keeps the results of a suite between its runs.
-/

namespace MiniPascal

/-- A command that was run.  Durations are in nanoseconds. -/
structure Execution where
  stdout : String := ""
  stderr : String := ""
  exitCode : Int := 0
  duration : Int64 := 0
  timedOut : Bool := false
  deriving DecidableEq

/-- The verdict on a program. -/
inductive Status where
  | pass
  | fail
  | skip
  | error
  /-- Some other word, from a report that was written by hand. -/
  | other (word : String)
  deriving DecidableEq

namespace Status

/-- The word for a verdict. -/
def text : Status → String
  | pass => "PASS"
  | fail => "FAIL"
  | skip => "SKIP"
  | error => "ERROR"
  | other word => word

/-- The verdict of a word. -/
def ofText (s : String) : Status :=
  ([pass, fail, skip, error].find? fun v => v.text == s).getD (other s)

/-- Whether a verdict makes the suite fail. -/
def isBad : Status → Bool
  | fail | error => true
  | _ => false

end Status

structure TestResult where
  file : String := ""
  hash : String := ""
  status : Status := .other ""
  message : String := ""
  diff : String := ""
  compile : Option Execution := none
  run : Option Execution := none
  deriving DecidableEq

/-! ## Reports -/

/-- The results of a suite by file. -/
abbrev Report := List (String × TestResult)

def Execution.toJson (e : Execution) : JsonValue :=
  .object [.mk "stdout" (.text e.stdout), .mk "stderr" (.text e.stderr),
    .mk "exitCode" (.int e.exitCode), .mk "duration" (.int e.duration.toInt),
    .mk "timed_out" (.bool e.timedOut)]

/-- A result in a report.  What is empty is left out. -/
def TestResult.toJson (r : TestResult) : JsonValue :=
  let optional (name value : String) : List JsonField :=
    if value.isEmpty then [] else [.mk name (.text value)]
  let command (name : String) : Option Execution → List JsonField
    | none => []
    | some e => [.mk name e.toJson]
  .object ([.mk "file" (.text r.file), .mk "hash" (.text r.hash), .mk "status" (.text r.status.text)] ++
    optional "message" r.message ++ optional "diff" r.diff ++ command "compile" r.compile ++
    command "run" r.run)

namespace Report

def find? (r : Report) (file : String) : Option TestResult := r.lookup file

/-- The report of some results, sorted by file.  Of two results of one file the later counts. -/
def ofResults (rs : List TestResult) : Report :=
  let named := rs.reverse.map fun r => (r.file, r)
  let files := (named.map (·.1)).eraseDups.mergeSort (· ≤ ·)
  files.filterMap fun f => (named.lookup f).map (f, ·)

/-- Whether some verdict makes the suite fail. -/
def hasFailures (r : Report) : Bool := r.any fun (_, x) => x.status.isBad

def text (r : Report) : String := (JsonValue.object (r.map fun x => .mk x.1 x.2.toJson)).render 0

end Report

/-! ## Reading reports -/

/-- A letter without its case.  Two signs outside ASCII count as forms of ASCII letters: the long s and
the sign for kelvin. -/
def foldLetter (c : Char) : Char :=
  if c.toNat = 0x17F then 's' else if c.toNat = 0x212A then 'k' else c.toLower

/-- Whether a name is meant by another, where the case of letters does not count. -/
def sameName (wanted name : String) : Bool := wanted.map foldLetter == name.map foldLetter

/-- The text of a field; nothing is no text. -/
def readTextField (before : String) : JsonValue → Option String
  | .text s => some s
  | .null => some before
  | _ => none

/-- The integer of a field of 64 bits. -/
def readIntField (before : Int) : JsonValue → Option Int
  | .number s => do
    let n ← s.toInt?
    if Int64.minValue.toInt ≤ n && n ≤ Int64.maxValue.toInt then some n else none
  | .null => some before
  | _ => none

/-- Reads a field of a command.  Fields that are not known do not matter. -/
def Execution.readField (e : Execution) : JsonField → Option Execution
  | .mk name v =>
    if sameName "stdout" name then do return { e with stdout := ← readTextField e.stdout v }
    else if sameName "stderr" name then do return { e with stderr := ← readTextField e.stderr v }
    else if sameName "exitCode" name then do return { e with exitCode := ← readIntField e.exitCode v }
    else if sameName "duration" name then do
      return { e with duration := Int64.ofInt (← readIntField e.duration.toInt v) }
    else if sameName "timed_out" name then
      match v with
      | .bool b => some { e with timedOut := b }
      | .null => some e
      | _ => none
    else some e

/-- Reads a command.  What was read of it before stays where it is not read again. -/
def Execution.ofJson? (before : Option Execution) : JsonValue → Option (Option Execution)
  | .null => some none
  | .object fields => (fields.foldlM Execution.readField (before.getD {})).map some
  | _ => none

/-- Reads a field of a result.  Fields that are not known do not matter. -/
def TestResult.readField (r : TestResult) : JsonField → Option TestResult
  | .mk name v =>
    if sameName "file" name then do return { r with file := ← readTextField r.file v }
    else if sameName "hash" name then do return { r with hash := ← readTextField r.hash v }
    else if sameName "status" name then do
      return { r with status := .ofText (← readTextField r.status.text v) }
    else if sameName "message" name then do return { r with message := ← readTextField r.message v }
    else if sameName "diff" name then do return { r with diff := ← readTextField r.diff v }
    else if sameName "compile" name then do return { r with compile := ← Execution.ofJson? r.compile v }
    else if sameName "run" name then do return { r with run := ← Execution.ofJson? r.run v }
    else some r

/-- Reads a result; nothing is no result. -/
def TestResult.ofJson? : JsonValue → Option (Option TestResult)
  | .null => some none
  | .object fields => (fields.foldlM TestResult.readField {}).map some
  | _ => none

/-- Reads the entry of a file, if there is one. -/
def Report.readEntry : JsonField → Option (Option (String × TestResult))
  | .mk f v => (TestResult.ofJson? v).map (·.map (f, ·))

/-- Reads a report.  Of two entries of one file the later counts. -/
def Report.parse? (s : String) : Option Report := do
  match ← JsonValue.parse? s with
  | .null => some []
  | .object fields => (fields.mapM readEntry).map fun entries => (entries.filterMap id).reverse
  | _ => none

end MiniPascal
