import MiniPascal.Diagnostic.Basic

/-!
# Failures

A failure is what stops a stage: one diagnostic, several of them joined, or some other text; a text
may be put in front of it as context.  `Failure.parts` takes joins apart, and
`Failure.diagnostic?` finds the diagnostic that a part carries.
-/

namespace MiniPascal

/-- Why a stage did not succeed. -/
inductive Failure where
  | diagnostic (d : Diagnostic)
  | plain (text : String)
  | context (text : String) (inner : Failure)
  | join (parts : List Failure)

namespace Failure

mutual

/-- A failure as text.  The parts of a join stand on lines of their own. -/
def text : Failure → String
  | diagnostic d => d.text
  | plain text => text
  | context outer inner => outer ++ ": " ++ inner.text
  | join parts => "\n".intercalate (texts parts)

def texts : List Failure → List String
  | [] => []
  | f :: fs => f.text :: texts fs

end

mutual

/-- The parts of a failure, joins within joins taken apart too. -/
def parts : Failure → List Failure
  | join fs => partsOfAll fs
  | f => [f]

def partsOfAll : List Failure → List Failure
  | [] => []
  | f :: fs => f.parts ++ partsOfAll fs

end

mutual

/-- The first diagnostic that a failure carries. -/
def diagnostic? : Failure → Option Diagnostic
  | diagnostic d => some d
  | plain _ => none
  | context _ inner => inner.diagnostic?
  | join fs => firstDiagnostic? fs

def firstDiagnostic? : List Failure → Option Diagnostic
  | [] => none
  | f :: fs => f.diagnostic?.or (firstDiagnostic? fs)

end

/-- Several diagnostics as one failure. -/
def ofDiagnostics (ds : List Diagnostic) : Failure := join (ds.map diagnostic)

end Failure

end MiniPascal
