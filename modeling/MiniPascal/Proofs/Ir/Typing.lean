import Mathlib.Data.List.Forall2
import Mathlib.Data.List.Nodup
import MiniPascal.Proofs.Ir.WellFormed

/-!
# Types and names of code

Temporaries carry no types of their own. A temporary has the type of the parameter that it is, or
that of the instruction that assigns it, and an instruction is well typed if its operands can be
used at the types that its operation asks for. Addresses and long words are kept in the same
registers, so each can be used as the other. Whether a name is known where it is used is another
matter (`Func.Resolves`): a temporary can be assigned further down, or not at all.
-/

open List

namespace MiniPascal

theorem exists_of_forall₂ {α β : Type} {R : α → β → Prop} {xs : List α} {ys : List β}
    (h : Forall₂ R xs ys) {x : α} (member : x ∈ xs) : ∃ y ∈ ys, R x y := by
  induction h with
  | nil => cases member
  | cons first _ ih =>
    rcases mem_cons.mp member with rfl | later
    · exact ⟨_, mem_cons_self, first⟩
    · obtain ⟨y, inRest, related⟩ := ih later
      exact ⟨y, mem_cons_of_mem _ inRest, related⟩

end MiniPascal

namespace MiniPascal.Ir

/-- The type of the registers that hold values of a type. -/
def Ty.register : Ty → Ty
  | .address => .long
  | type => type

/-- The temporary with a key has a type. -/
inductive Func.HasType (f : Func) : String → Ty → Prop
  | param : q ∈ f.params → f.HasType q.temp.key q.type
  | instr : i ∈ f.instrs → i.result = .temp t → f.HasType t.key i.type

theorem Instr.defined?_eq_some {i : Instr} {key : String} :
    i.defined? = some key ↔ ∃ t, i.result = .temp t ∧ t.key = key := by
  cases h : i.result <;> simp [Instr.defined?, h]

/-- Only one instruction assigns a temporary. -/
theorem instr_unique {is : List Instr} (once : (is.filterMap Instr.defined?).Nodup) {i j : Instr}
    {key : String} (hi : i ∈ is) (hj : j ∈ is) (definesI : i.defined? = some key)
    (definesJ : j.defined? = some key) : i = j := by
  induction is with
  | nil => cases hi
  | cons k is ih =>
    rcases mem_cons.mp hi with rfl | laterI <;> rcases mem_cons.mp hj with rfl | laterJ
    · rfl
    · rw [filterMap_cons_some definesI, nodup_cons] at once
      exact absurd (mem_filterMap.mpr ⟨j, laterJ, definesJ⟩) once.1
    · rw [filterMap_cons_some definesJ, nodup_cons] at once
      exact absurd (mem_filterMap.mpr ⟨i, laterI, definesI⟩) once.1
    · exact ih (once.sublist ((sublist_cons_self ..).filterMap _)) laterI laterJ

theorem Func.HasType.mem {f : Func} {i : Instr} {t : Temp} (inside : i ∈ f.instrs)
    (result : i.result = .temp t) : t.key ∈ f.definedKeys :=
  mem_filterMap.mpr ⟨i, inside, Instr.defined?_eq_some.mpr ⟨t, result, rfl⟩⟩

/-- A temporary of a well-formed function has one type. -/
theorem Func.HasType.unique {p : Program} {f : Func} (wellFormed : f.WellFormed p)
    (params : f.paramKeys.Nodup) {key : String} {type type' : Ty} (h : f.HasType key type)
    (h' : f.HasType key type') : type = type' := by
  generalize same : key = key' at h'
  cases h with
  | @param q member =>
    cases h' with
    | @param q' member' => rw [inj_on_of_nodup_map params member member' same]
    | instr inside result =>
      exact absurd (mem_map.mpr ⟨q, member, same⟩) (wellFormed.apart _ (HasType.mem inside result))
  | @instr i t inside result =>
    cases h' with
    | param member =>
      exact absurd (mem_map.mpr ⟨_, member, same.symm⟩)
        (wellFormed.apart _ (HasType.mem inside result))
    | @instr j t' inside' result' =>
      rw [instr_unique wellFormed.once inside inside' (Instr.defined?_eq_some.mpr ⟨t, result, same⟩)
        (Instr.defined?_eq_some.mpr ⟨t', result', rfl⟩)]

/-- The names of data and functions. -/
def Program.symbols (p : Program) : List String :=
  p.globals.map (·.name) ++ p.strings.map (·.label) ++
    (p.funcs.map (·.name) ++ p.externs.map (·.name))

/-- A value can be used at a type. Nothing is asked of names that are not declared at all: a use of
one is no matter of types. -/
inductive Value.UsedAs (p : Program) (f : Func) : Value → Ty → Prop
  | const : type ≠ .none → UsedAs p f (.const c) type
  | temp :
    (∀ given, f.HasType t.key given → given.register = type.register) → UsedAs p f (.temp t) type
  | data :
    (name ∈ p.symbols → name ∈ p.globals.map (·.name) ++ p.strings.map (·.label)) →
    type.register = .long → UsedAs p f (.global name) type

/-- Whether an operation computes a number from two. -/
def Op.isArithmetic : Op → Bool
  | .add | .sub | .mul | .div | .rem | .and | .or => true
  | _ => false

/-- An instruction of a function is well typed. -/
inductive Instr.Typed (p : Program) (f : Func) (i : Instr) : Prop
  | alloc : i.op = .alloc → i.args = [.const n] → i.type = .address → Typed p f i
  | load : i.op = .load → i.args = [a] → a.UsedAs p f .address → i.type = .word → Typed p f i
  | store :
    i.op = .store → i.args = [v, a] → v.UsedAs p f .word → a.UsedAs p f .address → i.type = .word →
    i.result = .missing → Typed p f i
  | blit :
    i.op = .blit → i.args = [source, target, .const n] → source.UsedAs p f .address →
    target.UsedAs p f .address → i.result = .missing → Typed p f i
  | arith :
    i.op.isArithmetic = true → i.args = [x, y] → x.UsedAs p f i.type → y.UsedAs p f i.type →
    i.type ≠ .none → Typed p f i
  | compare :
    i.op.isComparison = true → i.args = [x, y] → x.UsedAs p f i.operandType →
    y.UsedAs p f i.operandType → i.operandType ≠ .none → i.type = .word → Typed p f i
  | extend : i.op = .extsw → i.args = [x] → x.UsedAs p f .word → i.type = .long → Typed p f i
  | jump : i.op = .jmp → i.args = [.label l] → i.result = .missing → Typed p f i
  | branch :
    i.op = .jnz → i.args = [v, .label yes, .label no] → v.UsedAs p f .word → i.result = .missing →
    Typed p f i
  | leave : i.op = .ret → i.args = [] → f.result = .none → i.result = .missing → Typed p f i
  | leaveWith :
    i.op = .ret → i.args = [v] → v.UsedAs p f f.result → f.result ≠ .none → i.result = .missing →
    Typed p f i
  | call {args : List Value} :
    g ∈ p.funcs → i.op = .call → i.args = .global g.name :: args →
    i.argTypes = g.params.map (·.type) → Forall₂ (Value.UsedAs p f) args i.argTypes →
    (i.result ≠ .missing → i.type = g.result ∧ g.result ≠ .none) → Typed p f i
  | callExtern {args : List Value} :
    e ∈ p.externs → i.op = .call → i.args = .global e.name :: args →
    i.argTypes = e.params ++ more → (e.variadic = false → more = []) →
    Forall₂ (Value.UsedAs p f) args i.argTypes → i.result = .missing → Typed p f i

/-- The code of a program is well typed, and functions and the parameters of a function are kept
apart. -/
structure Program.Typed (p : Program) : Prop where
  names : (p.funcs.map (·.name) ++ p.externs.map (·.name)).Nodup
  params : ∀ f ∈ p.funcs, f.paramKeys.Nodup
  instrs : ∀ f ∈ p.funcs, ∀ i ∈ f.instrs, i.Typed p f

/-! ## Names -/

/-- The name of a value is known, given the temporaries that are defined. -/
def Value.Known (symbols temps : List String) : Value → Prop
  | temp t => t.key ∈ temps
  | global g => g ∈ symbols
  | _ => True

/-- The names in a list of instructions are known, each where it stands. -/
def Resolved (symbols : List String) : List String → List Instr → Prop
  | _, [] => True
  | temps, i :: is =>
    (∀ v ∈ i.args, v.Known symbols temps) ∧ Resolved symbols (temps ++ i.defined?.toList) is

/-- The names in a function can be resolved in the order of its code. -/
def Func.Resolves (p : Program) (f : Func) : Prop := Resolved p.symbols f.paramKeys f.instrs

instance (symbols temps : List String) : ∀ v : Value, Decidable (v.Known symbols temps)
  | .temp t => inferInstanceAs (Decidable (t.key ∈ temps))
  | .global g => inferInstanceAs (Decidable (g ∈ symbols))
  | .const _ | .label _ | .missing => inferInstanceAs (Decidable True)

instance Resolved.decidable (symbols : List String) :
    ∀ (temps : List String) (is : List Instr), Decidable (Resolved symbols temps is)
  | _, [] => inferInstanceAs (Decidable True)
  | temps, i :: is =>
    have := Resolved.decidable symbols (temps ++ i.defined?.toList) is
    inferInstanceAs (Decidable (_ ∧ _))

instance (p : Program) (f : Func) : Decidable (f.Resolves p) := Resolved.decidable ..

theorem filterMap_defined?_cons (i : Instr) (is : List Instr) :
    (i :: is).filterMap Instr.defined? = i.defined?.toList ++ is.filterMap Instr.defined? := by
  rw [filterMap_cons]
  cases i.defined? <;> rfl

variable {symbols temps : List String} {is js : List Instr}

theorem resolved_append : Resolved symbols temps (is ++ js) ↔ Resolved symbols temps is ∧
    Resolved symbols (temps ++ is.filterMap Instr.defined?) js := by
  induction is generalizing temps with
  | nil => simp [Resolved]
  | cons i is ih =>
    simp only [cons_append, Resolved, ih, filterMap_defined?_cons, append_assoc, and_assoc]

/-- Names are resolved if each is known behind the instructions in front of it. -/
theorem resolved_of_each (h : ∀ before i after, is = before ++ i :: after →
      ∀ v ∈ i.args, v.Known symbols (temps ++ before.filterMap Instr.defined?)) :
    Resolved symbols temps is := by
  induction is generalizing temps with
  | nil => trivial
  | cons i is ih =>
    refine ⟨by simpa using h [] i is rfl, ih fun before j after split => ?_⟩
    rw [append_assoc, ← filterMap_defined?_cons]
    exact h (i :: before) j after (by rw [split, cons_append])

end MiniPascal.Ir
