import MiniPascal.Lower.Expression
import MiniPascal.Tree.Reader

/-!
# The static rules of the language

What makes a program correct, said without any reference to how it is compiled. A `Scope` tells what
names stand for at one place of a program. `WordTyped`, `CallTyped` and `StmtTyped` are the rules for
expressions, calls and statements in a scope. An `Outline` is a program as a list of declarations, and
`Outline.Correct` collects the rules for all of them.

Two rules look at more than the scope. A statement is checked only if it is reached, that is, if none
before it in its block always leaves. And a routine that is called must be given a body somewhere in
the program, not only before the call.
-/

namespace MiniPascal

/-- Variables with their types. -/
abbrev Vars := List (String × VarType)

namespace Static

open Lower (Builtin)

/-! ## Scopes -/

/-- What a caller has to know about a routine. -/
structure Signature where
  params : List VarType
  result : VarType

/-- What names stand for at one place of a program. `defined` holds of the routines that are given a
body somewhere. -/
structure Scope where
  constant? : String → Option Int64
  type? : String → Option VarType
  routine? : String → Option Signature
  defined : String → Prop

namespace Scope

variable (Γ : Scope)

/-- A name stands for a variable of a type. Constants hide variables. -/
def Holds (x : String) (type : VarType) : Prop :=
  Γ.constant? x = none ∧ Γ.type? x = some type

/-- A name stands for neither a constant nor a variable. -/
def Free (x : String) : Prop := Γ.constant? x = none ∧ Γ.type? x = none

/-- A name can be called as a declared routine. Built-in routines hide declared ones. -/
def Callable (f : String) (sig : Signature) : Prop :=
  Builtin.ofName? f = none ∧ Γ.routine? f = some sig ∧ Γ.defined f

/-- A tree names an array variable of the size of a type. -/
def NamesArray (like : VarType) (t : Tree) : Prop :=
  ∃ tok x type, t = .name tok x ∧ Γ.Holds x type ∧ type.isArray = true ∧ type.size = like.size

end Scope

variable (Γ : Scope) (multi : Bool)

/-! ## Expressions -/

/-- A tree is an integer expression: a number, a constant, an integer variable or element, the call
of a function, or an operation on such. -/
inductive WordTyped : Tree → Prop
  | number : WordTyped (.number tok value)
  | constant : Γ.constant? x = some value → WordTyped (.name tok x)
  | var : Γ.Holds x .integer → WordTyped (.name tok x)
  | bareCall :
    Γ.Free x → Γ.Callable x sig → sig.params = [] → sig.result ≠ .void → WordTyped (.name tok x)
  | element :
    Γ.Holds a (.array lower upper .integer) → WordTyped index → WordTyped (.element tok a index)
  | binary :
    0 < op.precedence → WordTyped left → WordTyped right → WordTyped (.binary tok op left right)
  | call :
    Γ.Callable f sig → sig.result ≠ .void → args.length = sig.params.length →
    (∀ param arg, (param, arg) ∈ sig.params.zip args → param.isArray = true → Γ.NamesArray param arg) →
    (∀ param arg, (param, arg) ∈ sig.params.zip args → param.isArray = false → WordTyped arg) →
    WordTyped (.call tok f args)

/-- Arguments fit the parameters of a routine: an array variable of equal size for an array, an
integer for an integer. -/
structure ArgsTyped (params : List VarType) (args : List Tree) : Prop where
  length : args.length = params.length
  arrays : ∀ param arg, (param, arg) ∈ params.zip args → param.isArray = true → Γ.NamesArray param arg
  words : ∀ param arg, (param, arg) ∈ params.zip args → param.isArray = false → WordTyped Γ arg

/-- A tree is something that can be assigned an integer. -/
inductive TargetTyped : Tree → Prop
  | var : Γ.Holds x .integer → TargetTyped (.name tok x)
  | element :
    Γ.Holds a (.array lower upper .integer) → WordTyped Γ index → TargetTyped (.element tok a index)

/-- A tree is a string literal. -/
def IsText (t : Tree) : Prop := ∃ tok value, t = .text tok value

/-! ## Calls -/

/-- The arguments fit a built-in routine. More than one can be written or read at once only if `multi`
is set. -/
def BuiltinTyped (args : List Tree) : Builtin → Prop
  | .write | .writeln =>
    (1 < args.length → multi = true) ∧ ∀ arg ∈ args, IsText arg ∨ WordTyped Γ arg
  | .readln => (1 < args.length → multi = true) ∧ ∀ arg ∈ args, TargetTyped Γ arg
  | .dec | .inc =>
    ∃ target, TargetTyped Γ target ∧ (args = [target] ∨ ∃ amount, WordTyped Γ amount ∧ args = [target, amount])

/-- A routine can be called for its effect. -/
inductive CallTyped (f : String) (args : List Tree) : Prop
  | builtin : Builtin.ofName? f = some b → BuiltinTyped Γ multi args b → CallTyped f args
  | routine : Γ.Callable f sig → ArgsTyped Γ sig.params args → CallTyped f args

/-! ## Statements -/

mutual

/-- Whether a statement always leaves the enclosing loop or routine. -/
def leaves : Tree → Bool
  | .leave _ | .exit _ => true
  | .block _ stmts => someLeaves stmts
  | .branch _ _ yes no => leaves yes && leaves no
  | _ => false

/-- Whether one of the statements always leaves. -/
def someLeaves : List Tree → Bool
  | [] => false
  | t :: ts => leaves t || someLeaves ts

end

/-- A statement is correct. The flag says that it stands inside a loop. -/
inductive StmtTyped : Bool → Tree → Prop
  | value : WordTyped Γ (.name tok x) → StmtTyped inLoop (.name tok x)
  | bareCall : Γ.Free x → CallTyped Γ multi x [] → StmtTyped inLoop (.name tok x)
  | element : WordTyped Γ (.element tok a index) → StmtTyped inLoop (.element tok a index)
  | call : CallTyped Γ multi f args → StmtTyped inLoop (.call tok f args)
  | assign : TargetTyped Γ target → WordTyped Γ value → StmtTyped inLoop (.assign tok target value)
  | assignArray :
    Γ.Holds x type → type.isArray = true → Γ.NamesArray type value →
    StmtTyped inLoop (.assign tok (.name tok' x) value)
  | branch {cond : Tree} :
    WordTyped Γ cond → StmtTyped inLoop yes → StmtTyped inLoop no → StmtTyped inLoop (.branch tok cond yes no)
  | absent : StmtTyped inLoop .absent
  | count :
    Γ.Holds x .integer → WordTyped Γ start → WordTyped Γ stop → StmtTyped true body →
    StmtTyped inLoop (.count tok x start stop down body)
  | loop {cond : Tree} :
    WordTyped Γ cond → StmtTyped true body → StmtTyped inLoop (.loop tok cond body)
  | leave : StmtTyped true (.leave tok)
  | exit : StmtTyped inLoop (.exit tok)
  | block :
    (∀ before t after, stmts = before ++ t :: after → (∀ b ∈ before, leaves b = false) → StmtTyped inLoop t) →
    StmtTyped inLoop (.block tok stmts)

variable {Γ multi}

theorem StmtTyped.block_nil : StmtTyped Γ multi inLoop (.block tok []) :=
  .block fun before t after split => by simp at split

/-- A block is correct if its first statement is and, unless that one leaves, so is the rest. -/
theorem StmtTyped.block_cons :
    StmtTyped Γ multi inLoop (.block tok (t :: ts)) ↔
      StmtTyped Γ multi inLoop t ∧ (leaves t = false → StmtTyped Γ multi inLoop (.block tok ts)) := by
  constructor
  · intro h
    cases h with
    | block reached =>
      refine ⟨reached [] t ts rfl (by simp), fun stays => .block ?_⟩
      intro before u after split allStay
      refine reached (t :: before) u after (by rw [split, List.cons_append]) ?_
      exact List.forall_mem_cons.mpr ⟨stays, allStay⟩
  · rintro ⟨first, rest⟩
    refine .block fun before u after split allStay => ?_
    cases before with
    | nil =>
      obtain ⟨rfl, rfl⟩ := List.cons.inj split
      exact first
    | cons b before =>
      obtain ⟨rfl, rfl⟩ := List.cons.inj split
      obtain ⟨stays, allStay⟩ := List.forall_mem_cons.mp allStay
      cases rest stays with
      | block reached => exact reached before u after rfl allStay

/-! ## Programs -/

/-- The declaration of a routine. A forward declaration has no body. -/
structure Header where
  name : String
  params : Vars
  result : VarType
  locals : Vars
  body? : Option Tree

namespace Header

variable (h : Header)

/-- What a caller has to know. -/
def signature : Signature := ⟨h.params.map Prod.snd, h.result⟩

/-- The variable of a function that takes its result. -/
def own : Vars := if h.result = .void then [] else [(h.name, .integer)]

/-- The variables of a routine, in the order in which they come to life. -/
def slots : Vars := h.params ++ h.locals ++ h.own

end Header

/-- A program as a list of declarations. -/
structure Outline where
  constants : List (String × Int64)
  globals : Vars
  headers : List Header
  main : Tree

/-- The variable that a tree declares. -/
def declared? : Tree → Option (String × VarType)
  | .varDecl _ x type _ => some (x, type)
  | _ => none

/-- The constant that a tree declares. -/
def constant? : Tree → Option (String × Int64)
  | .constDecl _ x value => some (x, value)
  | _ => none

/-- The routine that a tree declares. -/
def header? : Tree → Option Header
  | .routine _ name params result locals body =>
    some { name, params := params.filterMap declared?, result, locals := locals.filterMap declared?
           body? := if body.isAbsent then none else some body }
  | _ => none

/-- The declarations of a program. -/
def outline? : Tree → Option Outline
  | .program _ _ decls routines main =>
    some { constants := decls.filterMap constant?, globals := decls.filterMap declared?
           headers := routines.filterMap header?, main }
  | _ => none

namespace Outline

variable (o : Outline)

/-- A routine is given a body. -/
def Defined (f : String) : Prop := ∃ h ∈ o.headers, h.name = f ∧ h.body?.isSome = true

/-- The scope of a body with variables of its own, behind the headers that it can see. Of two constants
of one name the later counts. -/
def scope (headers : List Header) (own : Vars) : Scope where
  constant? x := o.constants.reverse.lookup x
  type? x := (own.lookup x).or (o.globals.lookup x)
  routine? f := (headers.find? fun h => h.name == f).map Header.signature
  defined := o.Defined

/-- Two declarations of one routine agree. -/
def Agree (h h' : Header) : Prop :=
  h.signature.params = h'.signature.params ∧ (h.result = .void ↔ h'.result = .void)

/-- A program is statically correct. -/
structure Correct (multi : Bool) : Prop where
  globals : (o.globals.map Prod.fst).Nodup
  results : ∀ h ∈ o.headers, h.result.isArray = false
  agree : ∀ h ∈ o.headers, ∀ h' ∈ o.headers, h.name = h'.name → Agree h h'
  once : o.headers.Pairwise fun h h' => h.name = h'.name → h.body?.isSome = true → h'.body? = none
  distinct : ∀ h ∈ o.headers, h.body?.isSome = true → (h.slots.map Prod.fst).Nodup
  bodies : ∀ before h after body, o.headers = before ++ h :: after → h.body? = some body →
    StmtTyped (o.scope (before ++ [h]) h.slots) multi false body
  main : StmtTyped (o.scope o.headers []) multi false o.main

end Outline

end Static

end MiniPascal
