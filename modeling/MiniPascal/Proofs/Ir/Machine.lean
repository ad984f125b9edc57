import Mathlib.Logic.Relation
import MiniPascal.Ir.Basic
import MiniPascal.Proofs.Meaning.Basic

/-!
# A machine for intermediate code

The machine executes one instruction after the other. Storage consists of regions of words: one for
each global variable, and a stack of those that functions allocate. An address is a region and an offset
in bytes; it can be read or written only inside the region and at a word. A call keeps the frame of the
caller, and a return gives up the regions that the function has allocated. The fresh cells of a region
are arbitrary: `fill` says what is found in those of the `k`-th region that is allocated.

The machine is stuck where the code has no meaning: `Machine.next?` is then `none`. A division by zero
and one that overflows are such cases.
-/

namespace MiniPascal.Ir

open Meaning (Word Content Datum Event setCell wrap)

/-! ## States -/

/-- Where a region of storage is. -/
inductive Anchor where
  | global (name : String)
  | stack (i : Nat)
  deriving DecidableEq

/-- The value of a temporary. -/
inductive Val where
  | word (w : Word)
  | long (w : BitVec 64)
  | address (anchor : Anchor) (offset : Int)
  | text (s : String)

/-- A region of storage. -/
structure Region where
  cells : Nat
  data : Content

/-- The values of temporaries, by their keys. -/
abbrev Temps := String → Option Val

/-- A temporary is assigned. -/
def Temps.set (τ : Temps) (t : Temp) (v : Val) : Temps := fun key => if key = t.key then some v else τ key

/-- A function under execution: what is left of the open block, and the height of the stack at the
call. -/
structure Frame where
  func : Func
  code : List Instr
  temps : Temps
  base : Nat

/-- A function that waits for a call to return, and where the result goes. -/
structure Caller where
  frame : Frame
  result : Value

/-- A state of the machine. -/
structure Machine where
  frame : Frame
  callers : List Caller
  stack : List Region
  globals : List (String × Region)
  input : List Int
  events : List Event
  created : Nat

/-- A state, or the end of a run. -/
inductive Config where
  | running (m : Machine)
  | halted (result : Option Val) (events : List Event)

/-! ## Storage -/

/-- The cell at an offset. -/
def cellAt? (offset : Int) : Option Nat :=
  if 0 ≤ offset ∧ offset % 4 = 0 then some (offset / 4).toNat else none

namespace Machine

variable (m : Machine)

def region? : Anchor → Option Region
  | .global name => m.globals.lookup name
  | .stack i => m.stack[i]?

/-- The cells of a region are changed. -/
def setData (anchor : Anchor) (data : Content) : Machine :=
  match anchor with
  | .global name =>
    { m with globals := m.globals.map fun g => (g.1, if g.1 = name then { g.2 with data } else g.2) }
  | .stack i => { m with stack := m.stack.modify i fun r => { r with data } }

/-- Reads the word at an address. -/
def read? (anchor : Anchor) (offset : Int) : Option Word := do
  let r ← m.region? anchor
  let k ← cellAt? offset
  guard (k < r.cells)
  return r.data k

/-- Writes a word to an address. -/
def write? (anchor : Anchor) (offset : Int) (w : Word) : Option Machine := do
  let r ← m.region? anchor
  let k ← cellAt? offset
  guard (k < r.cells)
  return m.setData anchor (setCell r.data k w)

/-- Copies a number of bytes from one address to another. -/
def copy? (source : Anchor) (first : Int) (target : Anchor) (second : Int) (size : Int64) : Option Machine := do
  let r ← m.region? source
  let s ← m.region? target
  let i ← cellAt? first
  let j ← cellAt? second
  let n ← cellAt? size.toInt
  guard (i + n ≤ r.cells ∧ j + n ≤ s.cells)
  return m.setData target fun k => if j ≤ k ∧ k < j + n then r.data (i + (k - j)) else s.data k

/-- Allocates a region. -/
def allocate? (fill : Nat → Content) (size : Int64) : Option Machine := do
  let cells ← cellAt? size.toInt
  return { m with stack := m.stack ++ [⟨cells, fill m.created⟩], created := m.created + 1 }

/-- Goes on with some instructions. -/
def goTo (code : List Instr) : Machine := { m with frame := { m.frame with code } }

/-- Assigns a result. -/
def assign? (result : Value) (v : Val) : Option Machine :=
  match result with
  | .temp t => some { m with frame := { m.frame with temps := m.frame.temps.set t v } }
  | _ => none

end Machine

/-! ## Operands -/

namespace Program

variable (p : Program) (τ : Temps)

/-- The value of an operand of a type. -/
def operand? (type : Ty) : Value → Option Val
  | .const value =>
    match type with
    | .word => some (.word (value.toBitVec.setWidth 32))
    | .long => some (.long value.toBitVec)
    | _ => none
  | .temp t => τ t.key
  | .global name =>
    match p.strings.find? fun l => l.label == name with
    | some l => some (.text l.value)
    | none => if name ∈ p.globals.map (·.name) then some (.address (.global name) 0) else none
  | _ => none

def word? (v : Value) : Option Word :=
  match p.operand? τ .word v with
  | some (.word w) => some w
  | _ => none

def long? (v : Value) : Option (BitVec 64) :=
  match p.operand? τ .long v with
  | some (.long w) => some w
  | _ => none

def address? (v : Value) : Option (Anchor × Int) :=
  match p.operand? τ .address v with
  | some (.address anchor offset) => some (anchor, offset)
  | _ => none

/-- The values of the arguments of a call. -/
def values? : List Value → List Ty → Option (List Val)
  | [], [] => some []
  | v :: vs, type :: types => do
    let x ← p.operand? τ type v
    let xs ← values? vs types
    return x :: xs
  | _, _ => none

end Program

/-! ## Operations -/

/-- An arithmetic operation. -/
def Op.arithmetic? {n : Nat} (op : Op) (x y : BitVec n) : Option (BitVec n) :=
  match op with
  | .add => some (x + y)
  | .sub => some (x - y)
  | .mul => some (x * y)
  | .div => if y = 0 ∨ (x = BitVec.intMin n ∧ y = -1) then none else some (x.sdiv y)
  | .rem => if y = 0 ∨ (x = BitVec.intMin n ∧ y = -1) then none else some (x.srem y)
  | .and => some (x &&& y)
  | .or => some (x ||| y)
  | _ => none

/-- A comparison. -/
def Op.comparison? {n : Nat} (op : Op) (x y : BitVec n) : Option Bool :=
  match op with
  | .ceq => some (x == y)
  | .cne => some (x != y)
  | .clt => some (x.slt y)
  | .cgt => some (y.slt x)
  | .cle => some (x.sle y)
  | .cge => some (y.sle x)
  | _ => none

/-- An operation on two operands. -/
def Program.binary? (p : Program) (τ : Temps) (i : Instr) (left right : Value) : Option Val :=
  match i.operandType with
  | .word => do
    let x ← p.word? τ left
    let y ← p.word? τ right
    ((i.op.arithmetic? x y).map Val.word).or ((i.op.comparison? x y).map fun b => .word (if b then 1 else 0))
  | .long => do
    let x ← p.long? τ left
    let y ← p.long? τ right
    ((i.op.arithmetic? x y).map Val.long).or ((i.op.comparison? x y).map fun b => .word (if b then 1 else 0))
  | .address => do
    let (anchor, offset) ← p.address? τ left
    let y ← p.long? τ right
    if i.op = .add then some (.address anchor (offset + y.toInt)) else none
  | _ => none

/-! ## Calls -/

/-- A value that can be printed. -/
def Val.datum? : Val → Option Datum
  | .word w => some (.word w)
  | .text s => some (.text s)
  | _ => none

namespace Machine

variable (m : Machine)

/-- Formatted output. -/
def print? : List Val → Option Machine
  | .text format :: args => do
    let data ← args.mapM Val.datum?
    return { m with events := m.events ++ [.print format data] }
  | _ => none

/-- Formatted input of a number. At the end of the input nothing is written. -/
def scan? : List Val → Option Machine
  | [.text format, .address anchor offset] =>
    match m.input with
    | [] => some { m with events := m.events ++ [.scan format none] }
    | value :: rest => do
      let m ← { m with input := rest }.write? anchor offset (wrap value)
      return { m with events := m.events ++ [.scan format (some (wrap value))] }
  | _ => none

/-- The temporaries of a function at its start. -/
def arguments (params : List Param) (args : List Val) : Temps :=
  fun key => ((params.map (·.temp.key)).zip args).lookup key

/-- Calls a function of the program or an external one. -/
def call? (p : Program) (callee : String) (result : Value) (args : List Val) : Option Machine :=
  match p.func? callee with
  | some f => do
    let b ← f.blocks.head?
    guard (args.length = f.params.length)
    return { m with
      frame := { func := f, code := b.instrs, temps := arguments f.params args, base := m.stack.length }
      callers := ⟨m.frame, result⟩ :: m.callers }
  | none =>
    if callee = "printf" then m.print? args
    else if callee = "scanf" then m.scan? args
    else none

/-- Goes back to the caller. -/
def return? (value : Option Val) : Option Config :=
  match m.callers with
  | [] => some (.halted value m.events)
  | c :: callers => do
    let back : Machine := { m with frame := c.frame, callers, stack := m.stack.take m.frame.base }
    match c.result, value with
    | .missing, _ => return .running back
    | result, some v => return .running (← back.assign? result v)
    | _, none => none

/-- Jumps to a block. -/
def jump? (label : String) : Option Machine :=
  (m.frame.func.blocks.find? fun b => b.label == label).map fun b => m.goTo b.instrs

/-! ## Execution -/

/-- Executes an instruction inside a block. -/
def execute? (p : Program) (fill : Nat → Content) (i : Instr) : Option Machine :=
  match i.op, i.args with
  | .alloc, [.const size] => do
    let n ← m.allocate? fill size
    n.assign? i.result (.address (.stack m.stack.length) 0)
  | .load, [address] => do
    let (anchor, offset) ← p.address? m.frame.temps address
    let w ← m.read? anchor offset
    m.assign? i.result (.word w)
  | .store, [value, address] => do
    let w ← p.word? m.frame.temps value
    let (anchor, offset) ← p.address? m.frame.temps address
    m.write? anchor offset w
  | .blit, [source, target, .const size] => do
    let (s, first) ← p.address? m.frame.temps source
    let (t, second) ← p.address? m.frame.temps target
    m.copy? s first t second size
  | .extsw, [value] => do
    let w ← p.word? m.frame.temps value
    m.assign? i.result (.long (w.signExtend 64))
  | .call, .global callee :: args => do
    let vals ← p.values? m.frame.temps args i.argTypes
    m.call? p callee i.result vals
  | _, [left, right] => do
    let v ← p.binary? m.frame.temps i left right
    m.assign? i.result v
  | _, _ => none

/-- One step of the machine. -/
def next? (p : Program) (fill : Nat → Content) : Option Config :=
  match m.frame.code with
  | [] => none
  | i :: rest =>
    match i.op, i.args with
    | .jmp, [.label target] => (m.jump? target).map .running
    | .jnz, [cond, .label yes, .label no] => do
      let w ← p.word? m.frame.temps cond
      (m.jump? (if w ≠ 0 then yes else no)).map .running
    | .ret, [] => m.return? none
    | .ret, [value] => do
      let w ← p.word? m.frame.temps value
      m.return? (some (.word w))
    | _, _ => ((m.goTo rest).execute? p fill i).map .running

end Machine

/-! ## Runs -/

section Runs

variable (p : Program) (fill : Nat → Content)

/-- The state in which a program starts. -/
def Program.boot? (input : List Int) : Option Machine := do
  let f ← p.func? "main"
  let b ← f.blocks.head?
  let globals ← p.globals.mapM fun g => (cellAt? g.size.toInt).map fun cells => (g.name, ⟨cells, fun _ => 0⟩)
  return {
    frame := { func := f, code := b.instrs, temps := fun _ => none, base := 0 }
    callers := [], stack := [], globals, input, events := [], created := 0 }

/-- A step from one state to another. -/
def Steps (m m' : Machine) : Prop := m.next? p fill = some (.running m')

/-- Steps lead from one state to another. -/
def Reaches : Machine → Machine → Prop := Relation.ReflTransGen (Steps p fill)

/-- A program ends on an input with a result and some events. -/
def Program.Ends (input : List Int) (result : Option Val) (events : List Event) : Prop :=
  ∃ m m', p.boot? input = some m ∧ Reaches p fill m m' ∧ m'.next? p fill = some (.halted result events)

end Runs

end MiniPascal.Ir
