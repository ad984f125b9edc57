import Mathlib.Algebra.Group.Int.Defs
import MiniPascal.Proofs.Meaning.Basic
import MiniPascal.Proofs.Static.Rules

/-!
# The meaning of source programs

An evaluator for the trees of programs. It takes fuel, which each call of a function of this module
uses up by one, and gives no result where the fuel runs out. It also gives none where the program has
no meaning: where a subscript is out of bounds or the array has `2 ^ 31` or more elements, where a type
is so large that its size wraps, and where a division is by zero or overflows.

Names stand for constants, then for variables of the routine, then for global ones, then for routines.
Operands and arguments are evaluated from left to right, the value of an assignment before its target,
and the amount of a step before its target. An array is passed as the variable that it is and copied
when the routine is entered. The last value of a counting loop is evaluated once; its variable is
compared with it before each round, and stepped from its current value behind each round.

Variables come to life with arbitrary contents, which `fill` gives for the `k`-th of them; the result of
a function starts as zero, and so do global variables.
-/

namespace MiniPascal.Meaning

open Lower (Builtin)
open Static (Header Outline)

/-! ## Stores -/

/-- A variable: one of the routine, or a global one. -/
inductive Place where
  | own (x : String)
  | global (x : String)
  deriving DecidableEq

/-- The state of a program: its variables, the input that is left, the events so far, and the number of
variables that have come to life in routines. -/
structure Store where
  globals : String → Content
  locals : String → Content
  input : List Int
  events : List Event
  created : Nat

namespace Store

def get (σ : Store) : Place → Content
  | .own x => σ.locals x
  | .global x => σ.globals x

def put (σ : Store) (place : Place) (c : Content) : Store :=
  match place with
  | .own x => { σ with locals := fun y => if y = x then c else σ.locals y }
  | .global x => { σ with globals := fun y => if y = x then c else σ.globals y }

/-- Assigns a cell of a variable. -/
def assign (σ : Store) (place : Place) (k : Nat) (w : Word) : Store :=
  σ.put place (setCell (σ.get place) k w)

def emit (σ : Store) (e : Event) : Store := { σ with events := σ.events ++ [e] }

/-- Reads the next number of the input into a cell, which keeps its value at the end of the input. -/
def scan (σ : Store) (place : Place) (k : Nat) : Store :=
  match σ.input with
  | [] => σ.emit (.scan "%d" none)
  | value :: rest => ({ σ with input := rest }.assign place k (wrap value)).emit (.scan "%d" (some (wrap value)))

/-- The state at the start of a program. -/
def initial (input : List Int) : Store where
  globals _ _ := 0
  locals _ _ := 0
  input := input
  events := []
  created := 0

end Store

/-! ## Names -/

/-- What the meaning of a body depends on besides the store. -/
structure Env where
  outline : Outline
  slots : Vars
  fill : Nat → Content

namespace Env

variable (E : Env)

/-- The constant of a name. Of two constants of one name the later counts. -/
def constant? (x : String) : Option Int64 := E.outline.constants.reverse.lookup x

/-- The variable of a name, unless it stands for a constant. -/
def storage? (x : String) : Option (Place × VarType) :=
  match E.constant? x with
  | some _ => none
  | none =>
    match E.slots.lookup x with
    | some type => some (.own x, type)
    | none => (E.outline.globals.lookup x).map fun type => (.global x, type)

theorem storage?_eq (h : E.constant? x = none) : E.storage? x =
    ((E.slots.lookup x).map fun type => (.own x, type)).or
      ((E.outline.globals.lookup x).map fun type => (.global x, type)) := by
  unfold storage?
  rw [h]
  cases E.slots.lookup x <;> rfl

/-- The integer variable of a name. -/
def integer? (x : String) : Option Place :=
  match E.storage? x with
  | some (place, .integer) => some place
  | _ => none

/-- The array variable that a tree names. -/
def array? : Tree → Option (Place × VarType)
  | .name _ x => (E.storage? x).filter fun v => v.2.isArray
  | _ => none

/-- The place of an element among the cells of an array. -/
def index? (lower upper : Int64) (i : Word) : Option Nat :=
  if lower.toInt ≤ i.toInt ∧ i.toInt ≤ upper.toInt ∧ upper.toInt - lower.toInt + 1 < 2 ^ 31 then
    some (i.toInt - lower.toInt).toNat
  else none

/-- The cell of an element. -/
def element? (a : String) (i : Word) : Option (Place × Nat) :=
  match E.storage? a with
  | some (place, .array lower upper .integer) => (index? lower upper i).map fun k => (place, k)
  | _ => none

/-- The declaration of a routine that has a body. Built-in routines hide declared ones. -/
def definition? (f : String) : Option (Header × Tree) :=
  if Builtin.ofName? f = none then
    E.outline.headers.findSome? fun h => if h.name = f then h.body?.map fun body => (h, body) else none
  else none

end Env

/-! ## Operators -/

/-- The word of a truth value. -/
def truth (p : Prop) [Decidable p] : Word := if p then 1 else 0

/-- The quotient of two words can be computed. -/
def Divides (x y : Word) : Prop := y.toInt ≠ 0 ∧ ¬ (x.toInt = -2 ^ 31 ∧ y.toInt = -1)

instance (x y : Word) : Decidable (Divides x y) := inferInstanceAs (Decidable (_ ∧ _))

/-- The meaning of a binary operator. -/
def operate? (op : Kind) (x y : Word) : Option Word :=
  match op with
  | .plus => some (wrap (x.toInt + y.toInt))
  | .minus => some (wrap (x.toInt - y.toInt))
  | .star => some (wrap (x.toInt * y.toInt))
  | .kwDiv => if Divides x y then some (wrap (x.toInt.tdiv y.toInt)) else none
  | .kwMod => if Divides x y then some (wrap (x.toInt.tmod y.toInt)) else none
  | .kwAnd => some (x &&& y)
  | .kwOr => some (x ||| y)
  | .eq => some (truth (x.toInt = y.toInt))
  | .ne => some (truth (x.toInt ≠ y.toInt))
  | .lt => some (truth (x.toInt < y.toInt))
  | .le => some (truth (x.toInt ≤ y.toInt))
  | .gt => some (truth (x.toInt > y.toInt))
  | .ge => some (truth (x.toInt ≥ y.toInt))
  | _ => none

/-- A variable is stepped. -/
def stepped (down : Bool) (x amount : Word) : Word :=
  if down then wrap (x.toInt - amount.toInt) else wrap (x.toInt + amount.toInt)

/-- Whether a counting loop goes on. -/
def goesOn (down : Bool) (x last : Word) : Bool :=
  if down then decide (x.toInt ≥ last.toInt) else decide (x.toInt ≤ last.toInt)

/-! ## Routines -/

/-- An argument: an integer, or an array variable of the caller. -/
inductive Arg where
  | word (w : Word)
  | array (place : Place)

/-- The first content of a variable, where `old` is found in its cells and an argument may be given. -/
def Store.first (σ : Store) (cells : Nat) (old : Content) : Option Arg → Content
  | none => old
  | some (.word w) => setCell old 0 w
  | some (.array place) => copyCells cells (σ.get place) old

/-- What the variables of a routine are given: the arguments, nothing, and zero for the result. -/
def given (h : Header) (args : List Arg) : List (Option Arg) :=
  args.map some ++ h.locals.map (fun _ => none) ++ h.own.map fun _ => some (.word 0)

/-- The store in which the variables of a routine have come to life. -/
def Store.enter (σ : Store) (fill : Nat → Content) (slots : Vars)
    (gifts : List (Option Arg)) : Store where
  globals := σ.globals
  locals x :=
    let j := (slots.map Prod.fst).idxOf x
    σ.first ((slots[j]?.map fun v => v.2.cells).getD 0) (fill (σ.created + j)) gifts[j]?.join
  input := σ.input
  events := σ.events
  created := σ.created + slots.length

/-- How a statement ends. -/
inductive Outcome where
  | normal
  | broke
  | exited
  deriving DecidableEq

/-! ## Evaluation -/

mutual

/-- The word of an expression. -/
def word (E : Env) : Nat → Tree → Store → Option (Word × Store)
  | 0, _, _ => none
  | _ + 1, .number _ value, σ => some (literal value, σ)
  | n + 1, .name _ x, σ =>
    match E.constant? x, E.storage? x with
    | some value, _ => some (literal value, σ)
    | none, some (place, .integer) => some (σ.get place 0, σ)
    | none, some _ => none
    | none, none => do
      let (result, σ) ← invoke E n x [] σ
      return (← result, σ)
  | n + 1, .element _ a index, σ => do
    let (i, σ) ← word E n index σ
    let (place, k) ← E.element? a i
    return (σ.get place k, σ)
  | n + 1, .binary _ op left right, σ => do
    let (x, σ) ← word E n left σ
    let (y, σ) ← word E n right σ
    return (← operate? op x y, σ)
  | n + 1, .call _ f args, σ => do
    let (result, σ) ← invoke E n f args σ
    return (← result, σ)
  | _ + 1, _, _ => none

/-- The arguments for parameters. -/
def arguments (E : Env) : Nat → List VarType → List Tree → Store → Option (List Arg × Store)
  | 0, _, _, _ => none
  | _ + 1, [], [], σ => some ([], σ)
  | n + 1, param :: params, t :: ts, σ =>
    if param.isArray then do
      let (place, _) ← E.array? t
      let (args, σ) ← arguments E n params ts σ
      return (.array place :: args, σ)
    else do
      let (w, σ) ← word E n t σ
      let (args, σ) ← arguments E n params ts σ
      return (.word w :: args, σ)
  | _ + 1, _, _, _ => none

/-- Calls a declared routine. A function has a result. -/
def invoke (E : Env) : Nat → String → List Tree → Store → Option (Option Word × Store)
  | 0, _, _, _ => none
  | n + 1, f, ts, σ => do
    let (h, body) ← E.definition? f
    let (args, σ) ← arguments E n (h.params.map Prod.snd) ts σ
    guard (∀ v ∈ h.slots, v.2.Fits)
    let (outcome, left) ← execute { E with slots := h.slots } n body (σ.enter E.fill h.slots (given h args))
    guard (outcome ≠ .broke)
    return (if h.result = .void then none else some (left.locals h.name 0), { left with locals := σ.locals })

/-- The cell of a target. -/
def target (E : Env) : Nat → Tree → Store → Option ((Place × Nat) × Store)
  | 0, _, _ => none
  | _ + 1, .name _ x, σ => do
    let place ← E.integer? x
    return ((place, 0), σ)
  | n + 1, .element _ a index, σ => do
    let (i, σ) ← word E n index σ
    return (← E.element? a i, σ)
  | _ + 1, _, _ => none

/-- Writes values one after the other. -/
def write (E : Env) : Nat → List Tree → Store → Option Store
  | 0, _, _ => none
  | _ + 1, [], σ => some σ
  | n + 1, .text _ value :: ts, σ => write E n ts (σ.emit (.print "%s" [.text value]))
  | n + 1, t :: ts, σ => do
    let (w, σ) ← word E n t σ
    write E n ts (σ.emit (.print "%d" [.word w]))

/-- Reads numbers into targets one after the other. -/
def read (E : Env) : Nat → List Tree → Store → Option Store
  | 0, _, _ => none
  | _ + 1, [], σ => some σ
  | n + 1, t :: ts, σ => do
    let ((place, k), σ) ← target E n t σ
    read E n ts (σ.scan place k)

/-- Steps a target up or down, by one if no amount is given. -/
def step (E : Env) (down : Bool) : Nat → List Tree → Store → Option Store
  | 0, _, _ => none
  | n + 1, [t], σ => do
    let ((place, k), σ) ← target E n t σ
    return σ.assign place k (stepped down (σ.get place k) 1)
  | n + 1, [t, amount], σ => do
    let (w, σ) ← word E n amount σ
    let ((place, k), σ) ← target E n t σ
    return σ.assign place k (stepped down (σ.get place k) w)
  | _ + 1, _, _ => none

/-- Calls a routine for its effect. -/
def perform (E : Env) : Nat → String → List Tree → Store → Option Store
  | 0, _, _, _ => none
  | n + 1, f, ts, σ =>
    match Builtin.ofName? f with
    | some .write => write E n ts σ
    | some .writeln => (write E n ts σ).map fun σ => σ.emit (.print "\n" [])
    | some .readln => read E n ts σ
    | some .inc => step E false n ts σ
    | some .dec => step E true n ts σ
    | none => (invoke E n f ts σ).map Prod.snd

/-- Executes a statement. -/
def execute (E : Env) : Nat → Tree → Store → Option (Outcome × Store)
  | 0, _, _ => none
  | _ + 1, .absent, σ => some (.normal, σ)
  | n + 1, .name tok x, σ =>
    if (E.constant? x).isSome ∨ (E.storage? x).isSome then
      (word E n (.name tok x) σ).map fun r => (.normal, r.2)
    else (perform E n x [] σ).map fun σ => (.normal, σ)
  | n + 1, .element tok a index, σ => (word E n (.element tok a index) σ).map fun r => (.normal, r.2)
  | n + 1, .call _ f args, σ => (perform E n f args σ).map fun σ => (.normal, σ)
  | n + 1, .assign _ t value, σ =>
    match E.array? t with
    | some (place, type) => do
      let (source, _) ← E.array? value
      return (.normal, σ.put place (copyCells type.cells (σ.get source) (σ.get place)))
    | none => do
      let (w, σ) ← word E n value σ
      let ((place, k), σ) ← target E n t σ
      return (.normal, σ.assign place k w)
  | n + 1, .branch _ cond yes no, σ => do
    let (w, σ) ← word E n cond σ
    if w ≠ 0 then execute E n yes σ else execute E n no σ
  | n + 1, .count _ x start stop down body, σ => do
    let (first, σ) ← word E n start σ
    let (last, σ) ← word E n stop σ
    let place ← E.integer? x
    count E place last down body n (σ.assign place 0 first)
  | n + 1, .loop _ cond body, σ => loop E cond body n σ
  | _ + 1, .leave _, σ => some (.broke, σ)
  | _ + 1, .exit _, σ => some (.exited, σ)
  | n + 1, .block _ ts, σ => executeAll E n ts σ
  | _ + 1, _, _ => none

/-- Executes statements one after the other, until one leaves. -/
def executeAll (E : Env) : Nat → List Tree → Store → Option (Outcome × Store)
  | 0, _, _ => none
  | _ + 1, [], σ => some (.normal, σ)
  | n + 1, t :: ts, σ => do
    let (outcome, σ) ← execute E n t σ
    if outcome = .normal then executeAll E n ts σ else return (outcome, σ)

/-- The rounds of a counting loop. -/
def count (E : Env) (place : Place) (last : Word) (down : Bool) (body : Tree) : Nat → Store → Option (Outcome × Store)
  | 0, _ => none
  | n + 1, σ =>
    if goesOn down (σ.get place 0) last then do
      let (outcome, σ) ← execute E n body σ
      match outcome with
      | .normal => count E place last down body n (σ.assign place 0 (stepped down (σ.get place 0) 1))
      | .broke => return (.normal, σ)
      | .exited => return (.exited, σ)
    else return (.normal, σ)

/-- The rounds of a loop. -/
def loop (E : Env) (cond body : Tree) : Nat → Store → Option (Outcome × Store)
  | 0, _ => none
  | n + 1, σ => do
    let (w, σ) ← word E n cond σ
    if w ≠ 0 then
      let (outcome, σ) ← execute E n body σ
      match outcome with
      | .normal => loop E cond body n σ
      | .broke => return (.normal, σ)
      | .exited => return (.exited, σ)
    else return (.normal, σ)

end

/-- The events of a program on an input. -/
def run? (fill : Nat → Content) (fuel : Nat) (t : Tree) (input : List Int) : Option (List Event) := do
  let o ← Static.outline? t
  guard (∀ g ∈ o.globals, g.2.Fits)
  let (outcome, σ) ← execute { outline := o, slots := [], fill } fuel o.main (.initial input)
  guard (outcome ≠ .broke)
  return σ.events

end MiniPascal.Meaning
