import MiniPascal.Suite.Duration
import MiniPascal.Suite.Result
import MiniPascal.Text.Space
import MiniPascal.Text.Split

/-!
# The summary of a suite

What is printed about the results: a section for each file, and a line with the counts.
-/

namespace MiniPascal.Summary

/-- The colour of failures. -/
def red : String := "\x1b[91m"
/-- The colour of warnings. -/
def yellow : String := "\x1b[93m"
/-- The colour of success. -/
def green : String := "\x1b[92m"
/-- The colour of file names. -/
def cyan : String := "\x1b[96m"
def bold : String := "\x1b[1m"
def plain : String := "\x1b[0m"

def paint (color text : String) : String := color ++ text ++ plain

/-- A line of a comparison: what was lost is red and what is new is green. -/
def diffLine (line : String) : String :=
  "    " ++ (match line.toList.dropWhile Text.isSpace with
    | '-' :: _ => paint red line
    | '+' :: _ => paint green line
    | _ => line) ++ "\n"

/-- A comparison, without the line ends at its end. -/
def diff (text : String) : String :=
  if text.isEmpty then ""
  else
    let kept := String.ofList (text.toList.reverse.dropWhile (· = '\n')).reverse
    String.join ((Text.split '\n' kept).map diffLine)

/-- The line between sections. -/
def rule : String := "".pushn '-' 70 ++ "\n"

/-- The line with a verdict. -/
def verdict (color : String) (r : TestResult) : String :=
  "  [" ++ paint color r.status.text ++ "] " ++ r.message ++ "\n"

/-- How long the commands of a result took. -/
def times (r : TestResult) : String :=
  match r.compile with
  | none => ""
  | some c =>
    "  compile: " ++ Duration.short c.duration.toInt ++
      (match r.run with
        | none => ""
        | some x => ", run: " ++ Duration.short x.duration.toInt) ++ "\n"

/-- The section of a result. -/
def entry (verbose : Bool) (r : TestResult) : String :=
  rule ++ "Testing " ++ paint cyan r.file ++ "...\n" ++
    (match r.status with
      | .pass => verdict green r
      | .fail => verdict red r ++ diff r.diff ++ "\n"
      | .skip => verdict yellow r
      | .error => verdict red r
      | .other _ => "") ++
    (if verbose then times r else "")

/-- How the line with the counts starts. -/
def heading : String := paint bold "Test Summary:"

/-- The line with the counts. -/
def counts (rs : List TestResult) : String :=
  let count (s : Status) (word : String) : String := toString (rs.countP (·.status = s)) ++ word
  heading ++ " " ++ paint green (count .pass " Passed") ++ ", " ++
    paint red (count .fail " Failed") ++ ", " ++ paint yellow (count .skip " Skipped") ++ ", " ++
    paint red (count .error " Errored") ++ ", " ++ toString rs.length ++ " Total"

/-- How long all compilations took together. -/
def totalCompile (rs : List TestResult) : Int64 :=
  (rs.filterMap (·.compile)).foldl (fun sum e => sum + e.duration) 0

def render (verbose : Bool) (rs : List TestResult) : String :=
  String.join (rs.map (entry verbose)) ++ rule ++ counts rs ++ "\n" ++
    (if verbose then "Total compile time: " ++ Duration.long (totalCompile rs).toInt ++ "\n" else "")

end MiniPascal.Summary
