import MiniPascal.Token.Basic
import MiniPascal.Tree.Type

/-!
# The grammar

Which lists of tokens are programs. The grammar says nothing of how tightly operators bind, and it
is ambiguous: an `else` can belong to any `if` in front of it that has none. Two rules are no matter
of kinds alone. The bounds of an array are in order, and a list of constants ends where no name
follows.
-/

namespace MiniPascal.Grammar

/-- The binary operators. -/
def operators : List Kind :=
  [.plus, .minus, .kwOr, .star, .kwDiv, .kwMod, .kwAnd, .eq, .ne, .lt, .le, .gt, .ge]

/-- The parts of the body of a routine. -/
inductive Part where
  | operand
  | operations
  | expression
  | arguments
  | target
  | call
  | statement
  | sequence
  | compound

/-- A list of semicolons. -/
def Semis (ss : List Token) : Prop := ∀ s ∈ ss, s.kind = .semi

/-- The tokens of a part of a body. `neg` allows a minus sign before any operand; without it, only
before a number. -/
inductive Derives (neg : Bool) : Part → List Token → Prop
  -- expressions
  | number : t.kind = .number → Derives neg .operand [t]
  | text : t.kind = .string → Derives neg .operand [t]
  | reference : Derives neg .target w → Derives neg .operand w
  | value : Derives neg .call w → Derives neg .operand w
  | parenthesized :
    l.kind = .lparen → Derives neg .expression w → r.kind = .rparen → Derives neg .operand (l :: (w ++ [r]))
  | negative : m.kind = .minus → t.kind = .number → Derives neg .operand [m, t]
  | negated : neg = true → m.kind = .minus → Derives neg .operand w → Derives neg .operand (m :: w)
  | expression :
    Derives neg .operand v → Derives neg .operations w → Derives neg .expression (v ++ w)
  | noOperation : Derives neg .operations []
  | operation :
    o.kind ∈ operators → Derives neg .operand v → Derives neg .operations w → Derives neg .operations (o :: (v ++ w))
  | name : x.kind = .identifier → Derives neg .target [x]
  | element :
    x.kind = .identifier → l.kind = .lbracket → Derives neg .expression w → r.kind = .rbracket →
    Derives neg .target (x :: l :: (w ++ [r]))
  | plainCall :
    x.kind = .identifier → l.kind = .lparen → r.kind = .rparen → Derives neg .call [x, l, r]
  | callWith :
    x.kind = .identifier → l.kind = .lparen → Derives neg .arguments w → r.kind = .rparen →
    Derives neg .call (x :: l :: (w ++ [r]))
  | lastArgument : Derives neg .expression w → Derives neg .arguments w
  | argument :
    Derives neg .expression v → c.kind = .comma → Derives neg .arguments w → Derives neg .arguments (v ++ c :: w)
  -- statements
  | mention : Derives neg .target w → Derives neg .statement w
  | perform : Derives neg .call w → Derives neg .statement w
  | assign :
    Derives neg .target v → a.kind = .assign → Derives neg .expression w → Derives neg .statement (v ++ a :: w)
  | branch :
    i.kind = .kwIf → Derives neg .expression c → t.kind = .kwThen → Derives neg .statement w →
    Derives neg .statement (i :: (c ++ t :: w))
  | branchElse :
    i.kind = .kwIf → Derives neg .expression c → t.kind = .kwThen → Derives neg .statement v →
    e.kind = .kwElse → Derives neg .statement w → Derives neg .statement (i :: (c ++ t :: (v ++ e :: w)))
  | count :
    f.kind = .kwFor → x.kind = .identifier → a.kind = .assign → Derives neg .expression v →
    d.kind = .kwTo ∨ d.kind = .kwDownto → Derives neg .expression w → k.kind = .kwDo →
    Derives neg .statement b → Derives neg .statement (f :: x :: a :: (v ++ d :: (w ++ k :: b)))
  | loop :
    l.kind = .kwWhile → Derives neg .expression c → k.kind = .kwDo → Derives neg .statement b →
    Derives neg .statement (l :: (c ++ k :: b))
  | leave : t.kind = .kwBreak → Derives neg .statement [t]
  | exit : t.kind = .kwExit → Derives neg .statement [t]
  | block : Derives neg .compound w → Derives neg .statement w
  | lastStatement : Derives neg .statement w → Derives neg .sequence w
  | nextStatement :
    Derives neg .statement v → ss ≠ [] → Semis ss → Derives neg .sequence w → Derives neg .sequence (v ++ (ss ++ w))
  | emptyCompound :
    b.kind = .kwBegin → Semis ss → e.kind = .kwEnd → Derives neg .compound (b :: (ss ++ [e]))
  | compound :
    b.kind = .kwBegin → Semis ss → Derives neg .sequence w → Semis ts → e.kind = .kwEnd →
    Derives neg .compound (b :: (ss ++ (w ++ (ts ++ [e]))))

/-! ## Declarations -/

/-- The tokens of a number with an optional minus sign, and its value. -/
inductive Signed : Int64 → List Token → Prop
  | plain : t.kind = .number → Signed t.number [t]
  | negative : m.kind = .minus → t.kind = .number → Signed (-t.number) [m, t]

/-- The tokens of a type. -/
inductive IsType : VarType → List Token → Prop
  | integer : t.kind = .kwInteger → IsType .integer [t]
  | array :
    a.kind = .kwArray → l.kind = .lbracket → Signed lower v → d.kind = .dotDot → Signed upper w →
    r.kind = .rbracket → o.kind = .kwOf → IsType elem u → lower ≤ upper →
    IsType (.array lower upper elem) (a :: l :: (v ++ d :: (w ++ r :: o :: u)))

/-- The tokens of names with commas between them. -/
inductive Names : List Token → Prop
  | last : x.kind = .identifier → Names [x]
  | next : x.kind = .identifier → c.kind = .comma → Names w → Names (x :: c :: w)

/-- The tokens of names and their type. -/
inductive Group : List Token → Prop
  | mk : Names v → c.kind = .colon → IsType type w → Group (v ++ c :: w)

/-- The tokens of a declaration of variables. -/
inductive Variables : List Token → Prop
  | mk : k.kind = .kwVar → Group w → s.kind = .semi → Variables (k :: (w ++ [s]))

/-- The tokens of definitions of constants. -/
inductive Definitions : List Token → Prop
  | last :
    x.kind = .identifier → e.kind = .eq → Signed value w → s.kind = .semi → Definitions (x :: e :: (w ++ [s]))
  | next :
    x.kind = .identifier → e.kind = .eq → Signed value w → s.kind = .semi → Definitions u →
    Definitions (x :: e :: (w ++ s :: u))

/-- The tokens of a section of constants. -/
inductive Constants : List Token → Prop
  | mk : k.kind = .kwConst → Definitions w → Constants (k :: w)

/-- The tokens of groups of parameters. A semicolon may stand behind the last. -/
inductive Groups : List Token → Prop
  | last : Group w → Groups w
  | lastSemi : Group w → s.kind = .semi → Groups (w ++ [s])
  | next : Group v → s.kind = .semi → Groups w → Groups (v ++ s :: w)

/-- The tokens of the parameters of a routine. -/
inductive Parameters : List Token → Prop
  | none : Parameters []
  | empty : l.kind = .lparen → r.kind = .rparen → Parameters [l, r]
  | given : l.kind = .lparen → Groups w → r.kind = .rparen → Parameters (l :: (w ++ [r]))

/-- The tokens of a routine up to its result. -/
inductive Heading : VarType → List Token → Prop
  | function :
    f.kind = .kwFunction → x.kind = .identifier → Parameters v → c.kind = .colon → IsType type w →
    Heading type (f :: x :: (v ++ c :: w))
  | procedure :
    f.kind = .kwProcedure → x.kind = .identifier → Parameters v → Heading .void (f :: x :: v)

/-- The tokens of the variables of a routine. -/
inductive Locals : List Token → Prop
  | nil : Locals []
  | cons : Variables v → Locals w → Locals (v ++ w)

/-- The tokens of a routine. -/
inductive Routine (neg : Bool) : List Token → Prop
  | forward :
    Heading result h → s.kind = .semi → f.kind = .kwForward → e.kind = .semi → Routine neg (h ++ [s, f, e])
  | defined :
    Heading result h → s.kind = .semi → Locals l → Derives neg .compound b → e.kind = .semi →
    Routine neg (h ++ s :: (l ++ (b ++ [e])))

/-- The tokens of declarations and the body behind them. -/
inductive Block (neg : Bool) : List Token → Prop
  | body : Derives neg .statement w → Block neg w
  | vars : Variables v → Block neg w → Block neg (v ++ w)
  | consts :
    Constants v → Block neg w → (∀ t, w.head? = some t → t.kind ≠ .identifier) → Block neg (v ++ w)
  | routine : Routine neg v → Block neg w → Block neg (v ++ w)

/-- The tokens of a program. -/
inductive Program (neg : Bool) : List Token → Prop
  | mk :
    p.kind = .kwProgram → x.kind = .identifier → s.kind = .semi → Block neg w → d.kind = .dot →
    Program neg (p :: x :: s :: (w ++ [d]))

end MiniPascal.Grammar
