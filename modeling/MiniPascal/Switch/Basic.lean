/-!
# Switches

Two closed families of switches steer the compiler.  A `Feature` is a language extension, which a
dialect turns on or off; a `Warning` is a class of remarks that may be printed.  A setting of a
family is a function into `Bool`, so two settings are equal when they agree on every switch.
-/

namespace MiniPascal

/-- A setting of a family of switches. -/
abbrev Switches (α : Type) := α → Bool

/-- The setting `s` with switch `a` turned to `on`. -/
def Switches.set {α : Type} [DecidableEq α] (s : Switches α) (a : α) (on : Bool) : Switches α :=
  fun b => if b = a then on else s b

@[simp] theorem Switches.set_self {α : Type} [DecidableEq α] (s : Switches α) (a : α) (on : Bool) :
    s.set a on a = on := by
  simp [Switches.set]

@[simp] theorem Switches.set_of_ne {α : Type} [DecidableEq α] (s : Switches α) {a b : α} (on : Bool)
    (h : b ≠ a) : s.set a on b = s b := by
  simp [Switches.set, h]

/-! ## Features -/

inductive Feature where
  | braceComments
  | caseFold
  | multiWrite
  | negExpr
  deriving DecidableEq

namespace Feature

/-- Every feature, in the order in which they are listed and numbered. -/
def all : List Feature := [braceComments, caseFold, multiWrite, negExpr]

/-- The name of a feature on the command line and in project files. -/
def name : Feature → String
  | braceComments => "brace-comments"
  | caseFold => "case-fold"
  | multiWrite => "multi-write"
  | negExpr => "neg-expr"

def description : Feature → String
  | braceComments => "Recognize Pascal '\x7b ... \x7d' block comments."
  | caseFold => "Treat keywords and identifiers case-insensitively."
  | multiWrite => "Allow write/writeln to take more than one argument."
  | negExpr => "Allow unary minus in front of any operand, not only literals."

def ofName? (s : String) : Option Feature :=
  all.find? fun f => f.name == s

/-- The extended dialect: everything but case folding. -/
def extended : Switches Feature
  | caseFold => false
  | _ => true

/-- The strict dialect has no extension. -/
def strict : Switches Feature := fun _ => false

end Feature

/-! ## Warnings -/

inductive Warning where
  | unreachableCode
  | arrayBounds
  | forwardUndefined
  | shadow
  | redefinition
  | unused
  | extra
  deriving DecidableEq

namespace Warning

/-- Every class of warnings, in the order in which they are listed and numbered. -/
def all : List Warning :=
  [unreachableCode, arrayBounds, forwardUndefined, shadow, redefinition, unused, extra]

/-- The name of a warning on the command line and in project files. -/
def name : Warning → String
  | unreachableCode => "unreachable-code"
  | arrayBounds => "array-bounds"
  | forwardUndefined => "forward-undefined"
  | shadow => "shadow"
  | redefinition => "redefinition"
  | unused => "unused"
  | extra => "extra"

def description : Warning → String
  | unreachableCode => "Warn about statements following 'break' or 'exit'."
  | arrayBounds => "Warn when a constant index falls outside the array bounds."
  | forwardUndefined => "Warn about forward declarations that are never defined."
  | shadow => "Warn when a parameter or local hides a global or a constant."
  | redefinition => "Warn when a global name is declared more than once."
  | unused => "Warn about locals that are never referenced."
  | extra => "Enable extra miscellaneous warnings."

def ofName? (s : String) : Option Warning :=
  all.find? fun w => w.name == s

/-- By default every warning but the one on unused locals is printed. -/
def standard : Switches Warning
  | unused => false
  | _ => true

end Warning

end MiniPascal
