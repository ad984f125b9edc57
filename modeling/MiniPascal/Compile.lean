import MiniPascal.Backend
import MiniPascal.Lower.Program
import MiniPascal.Tree.Reader

/-!
# Compiling

From source text to a tree, to code, and to the text of a backend.  Warnings that are switched on are
collected whatever comes of the program.
-/

namespace MiniPascal

/-- What came of a stage, with the warnings made so far. -/
structure Compilation (α : Type) where
  result : Except Failure α
  remarks : List Remark := []

namespace Compilation

/-- Goes on with a result, if there is one. -/
def andThen {α β : Type} (c : Compilation α) (f : α → Except Failure β) : Compilation β :=
  { c with result := c.result.bind f }

end Compilation

def lowerTree (s : Settings) (t : Tree) : Compilation Ir.Program :=
  let outcome := Lower.lower s t
  { result := outcome.code.mapError Failure.ofDiagnostics, remarks := outcome.remarks }

def parseSource (s : Settings) (source : String) : Except Failure Tree :=
  (Tree.ofSource s.features source).mapError fun f => .diagnostic f.diagnostic

def lowerSource (s : Settings) (source : String) : Compilation Ir.Program :=
  match parseSource s source with
  | .error f => { result := .error f }
  | .ok t => lowerTree s t

/-- Code in the language of the backend that is set. -/
def renderProgram (s : Settings) (p : Ir.Program) : Except Failure String := do
  (← Backend.select s.backend).render p

def compileTree (s : Settings) (t : Tree) : Compilation String :=
  (lowerTree s t).andThen (renderProgram s)

def compileSource (s : Settings) (source : String) : Compilation String :=
  (lowerSource s source).andThen (renderProgram s)

end MiniPascal
