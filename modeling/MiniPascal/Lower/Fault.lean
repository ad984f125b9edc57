import MiniPascal.Diagnostic.Report
import MiniPascal.Ir.Verify
import MiniPascal.Tree.Type

/-!
# Faults and cautions of lowering

A `Fault` says why a tree has no code; a `Caution` is a remark about one that has.  Faults of a
`structural` category cannot arise from source text.
-/

namespace MiniPascal.Lower

/-- Where a whole array was needed. -/
inductive ArrayUse where
  | source
  | argument (index : Nat) (callee : String)

def ArrayUse.text : ArrayUse → String
  | source => "the source of an array assignment"
  | argument index callee => "argument " ++ toString index ++ " of '" ++ callee ++ "'"

inductive Fault where
  | notProgram
  | strayDeclaration (kind : String)
  | duplicateGlobal (name : String) (line : Int)
  | duplicateLocal (name : String) (line : Int)
  | arrayResult (name : String)
  | conflict (name : String) (line : Int)
  | redefinition (name : String)
  | undefinedForward (name : String)
  | strayBreak
  | constantControl (name : String)
  | undeclaredControl (name : String)
  | arrayControl (name : String)
  | notExpression (kind : String)
  | unknownOperator (op : Kind)
  | strayString
  | undeclaredVariable (name : String)
  | arrayAsInteger (name : String)
  | arrayElement (name : String)
  | constantIndexed (name : String)
  | undeclaredArray (name : String)
  | notArray (name : String)
  | constantAssigned (name : String)
  | notAssignable
  | notArrayVariable (use : ArrayUse) (type : VarType)
  | arraySize (name : String) (size expected : Int64)
  | valuelessBuiltin (name : String)
  | valuelessProcedure (name : String)
  | unknownRoutine (name : String)
  | argumentCount (name : String) (expected got : Nat)
  | tooManyArguments (name : String) (most got : Nat)
  | stepArguments (name : String) (got : Nat)
  | malformed (problem : Ir.Problem)

namespace Fault

/-- Whether a fault is one of the program, or of the tree that was handed in. -/
def category : Fault → Category
  | notProgram | notExpression _ | unknownOperator _ | malformed _ => .structural
  | _ => .semantic

def message : Fault → String
  | notProgram => "lowering expects a program node"
  | strayDeclaration kind => "unexpected " ++ kind ++ " in the global declarations"
  | duplicateGlobal name line =>
    "global variable '" ++ name ++ "' is already declared (line " ++ toString line ++ ")"
  | duplicateLocal name line =>
    "'" ++ name ++ "' is already declared in this function (line " ++ toString line ++ ")"
  | arrayResult name => "function '" ++ name ++ "' must return integer"
  | conflict name line =>
    "conflicting declaration of '" ++ name ++ "' (first declared at line " ++ toString line ++ ")"
  | redefinition name => "redefinition of '" ++ name ++ "'"
  | undefinedForward name => "'" ++ name ++ "' is declared forward but never defined"
  | strayBreak => "'break' is not inside a loop"
  | constantControl name => "constant '" ++ name ++ "' cannot be used as a loop variable"
  | undeclaredControl name => "undeclared variable '" ++ name ++ "' in for statement"
  | arrayControl name => "loop variable '" ++ name ++ "' must be an integer"
  | notExpression kind => kind ++ " used as an expression"
  | unknownOperator op => "unknown binary operator '" ++ op.spelling ++ "'"
  | strayString => "a string can only be passed to write or writeln"
  | undeclaredVariable name => "undeclared variable '" ++ name ++ "'"
  | arrayAsInteger name => "array '" ++ name ++ "' cannot be used as an integer value"
  | arrayElement name => "element of '" ++ name ++ "' is an array, not an integer"
  | constantIndexed name => "constant '" ++ name ++ "' cannot be indexed"
  | undeclaredArray name => "undeclared array '" ++ name ++ "'"
  | notArray name => "'" ++ name ++ "' is not an array"
  | constantAssigned name => "cannot assign to constant '" ++ name ++ "'"
  | notAssignable => "expression is not assignable"
  | notArrayVariable use type => use.text ++ " must be an array variable of type " ++ type.format
  | arraySize name size expected =>
    "array '" ++ name ++ "' has size " ++ toString size ++ ", expected " ++ toString expected
  | valuelessBuiltin name => "'" ++ name ++ "' does not return a value"
  | valuelessProcedure name => "procedure '" ++ name ++ "' does not return a value"
  | unknownRoutine name => "unknown function or procedure '" ++ name ++ "'"
  | argumentCount name expected got =>
    "'" ++ name ++ "' expects " ++ toString expected ++ " argument(s), got " ++ toString got
  | tooManyArguments name most got =>
    "'" ++ name ++ "' takes at most " ++ toString most ++ " argument(s), got " ++ toString got
  | stepArguments name got => "'" ++ name ++ "' expects 1 or 2 arguments, got " ++ toString got
  | malformed problem => problem.message

def diagnostic (f : Fault) (tok : Token) : Diagnostic :=
  { category := f.category, tok, message := f.message }

end Fault

/-- A remark about a tree that can be lowered. -/
inductive Caution where
  | constantRedefined (name : String)
  | constantHidesGlobal (name : String)
  | globalHidden (name : String)
  | localHidden (name : String)
  | localShadows (name : String)
  | routineHidden (name : String)
  | unusedLocal (name : String)
  | undefinedForward (name : String)
  | unreachable
  | outOfBounds (index : Int64) (name : String) (lower upper : Int64)

namespace Caution

def warning : Caution → Warning
  | constantRedefined _ | constantHidesGlobal _ | globalHidden _ => .redefinition
  | localHidden _ | localShadows _ | routineHidden _ => .shadow
  | unusedLocal _ => .unused
  | undefinedForward _ => .forwardUndefined
  | unreachable => .unreachableCode
  | outOfBounds .. => .arrayBounds

def message : Caution → String
  | constantRedefined name => "constant '" ++ name ++ "' redefined"
  | constantHidesGlobal name =>
    "constant '" ++ name ++ "' hides the global variable of the same name"
  | globalHidden name =>
    "global variable '" ++ name ++ "' is hidden by the constant of the same name"
  | localHidden name => "'" ++ name ++ "' is hidden by the constant of the same name"
  | localShadows name => "'" ++ name ++ "' shadows a global variable"
  | routineHidden name => "'" ++ name ++ "' is hidden by the built-in of the same name"
  | unusedLocal name => "local variable '" ++ name ++ "' is never used"
  | undefinedForward name => "'" ++ name ++ "' is declared forward but never defined"
  | unreachable => "unreachable code"
  | outOfBounds index name lower upper =>
    "index " ++ toString index ++ " is outside the bounds of '" ++ name ++ "' (" ++
      toString lower ++ ".." ++ toString upper ++ ")"

def remark (c : Caution) (tok : Token) : Remark :=
  { warning := c.warning, tok, message := c.message }

end Caution

end MiniPascal.Lower
