import MiniPascal.Diagnostic.Failure
import MiniPascal.Llvm.Build
import MiniPascal.Llvm.Text
import MiniPascal.Qbe.Text

/-!
# Backends

A backend writes code in the language of another compiler, which makes machine code of it.
-/

namespace MiniPascal

/-- A language that code can be written in. -/
inductive Backend where
  | qbe
  | llvm
  deriving DecidableEq

namespace Backend

def name : Backend → String
  | qbe => "qbe"
  | llvm => "llvm"

def ofName? (s : String) : Option Backend := [qbe, llvm].find? fun b => b.name == s

/-- The backend of a given name, or the failure that there is none. -/
def select (s : String) : Except Failure Backend :=
  match ofName? s with
  | some b => .ok b
  | none => .error (.plain ("unsupported backend '" ++ s ++ "'"))

/-- Code as text.  QBE takes all code; for LLVM its operands must have types that are known. -/
def render (b : Backend) (p : Ir.Program) : Except Failure String :=
  match b with
  | qbe => .ok (Qbe.render p)
  | llvm =>
    match Llvm.build p with
    | .ok m => .ok m.text
    | .error (f, e) => .error (.context ("function $" ++ f) (.plain e.message))

end Backend

end MiniPascal
