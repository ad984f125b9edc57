import Mathlib.Data.List.Forall2
import MiniPascal.Proofs.Lower.Determined

/-!
# Code that is alike

Two pieces of code are alike if they differ only in names that were handed out: the numbers of their
labels are moved by one amount, and where one has the label of a string, the other has that of the same
string in its own table. The code of one body in two programs is alike, whatever the tables of strings
and the first free labels are.
-/

open List

namespace MiniPascal.Lower

open Ir (Value Instr Ty Line plain)
open Static (Scope Signature Header)

/-! ## The relation -/

section Relation

variable (d : Int) (S S' : List Ir.StringLit)

/-- A label and the one whose number is greater by `d`. The label at the start of a function has no
number. -/
inductive Moved : String → String → Prop
  | start : Moved "start" "start"
  | numbered {k k' : Nat} : (k' : Int) = k + d → Moved (numbered hint k) (numbered hint k')

/-- A value is neither a label nor the address of a string of one of two tables. -/
structure Fixed (v : Value) : Prop where
  label : ∀ l, v ≠ .label l
  string : ∀ l ∈ S ++ S', v ≠ .global l.label

/-- Values that differ only in the number of a label, or in the label of one string. -/
inductive AlikeValue : Value → Value → Prop
  | fixed : Fixed S S' v → AlikeValue v v
  | string : ⟨label, text⟩ ∈ S → ⟨label', text⟩ ∈ S' → AlikeValue (.global label) (.global label')
  | label : Moved d l l' → AlikeValue (.label l) (.label l')

/-- Instructions with values that are alike. -/
structure AlikeInstr (i i' : Instr) : Prop where
  op : i'.op = i.op
  type : i'.type = i.type
  operandType : i'.operandType = i.operandType
  result : AlikeValue d S S' i.result i'.result
  args : Forall₂ (AlikeValue d S S') i.args i'.args
  argTypes : i'.argTypes = i.argTypes
  align : i'.align = i.align

/-- Blocks of instructions that are alike. -/
structure AlikeBlock (b b' : Ir.Block) : Prop where
  label : Moved d b.label b'.label
  instrs : Forall₂ (AlikeInstr d S S') b.instrs b'.instrs

/-- Functions of blocks that are alike. -/
structure AlikeFunc (f f' : Ir.Func) : Prop where
  name : f'.name = f.name
  params : f'.params = f.params
  result : f'.result = f.result
  exported : f'.exported = f.exported
  blocks : Forall₂ (AlikeBlock d S S') f.blocks f'.blocks

/-- Lines that are alike. -/
inductive AlikeLine : Line → Line → Prop
  | instr : AlikeInstr d S S' i i' → AlikeLine (.instr i) (.instr i')
  | label : Moved d l l' → AlikeLine (.label l) (.label l')

end Relation

section Lines

variable {d : Int} {S S' : List Ir.StringLit}

theorem alike_plain (h : Forall₂ (AlikeInstr d S S') is is') :
    Forall₂ (AlikeLine d S S') (plain is) (plain is') := by
  induction h with
  | nil => exact .nil
  | cons first _ rest => exact .cons (.instr first) rest

theorem alike_append (first : Forall₂ (AlikeLine d S S') ls ls')
    (second : Forall₂ (AlikeLine d S S') ms ms') :
    Forall₂ (AlikeLine d S S') (ls ++ ms) (ls' ++ ms') := rel_append first second

/-- What stands in front of the next label is alike, and so is the rest. -/
theorem alike_of_plain_append
    (h : Forall₂ (AlikeLine d S S') (plain is ++ Ir.listing bs) (plain is' ++ Ir.listing bs')) :
    Forall₂ (AlikeInstr d S S') is is' ∧ Forall₂ (AlikeLine d S S') (Ir.listing bs) (Ir.listing bs') := by
  induction is generalizing is' with
  | nil =>
    cases is' with
    | nil => exact ⟨.nil, h⟩
    | cons i is' =>
      cases bs with
      | nil => cases h
      | cons b bs =>
        cases h with
        | cons first => cases first
  | cons i is ih =>
    cases is' with
    | nil =>
      cases bs' with
      | nil => cases h
      | cons b bs' =>
        cases h with
        | cons first => cases first
    | cons i' is' =>
      cases h with
      | cons first rest =>
        cases first with
        | instr alike =>
          obtain ⟨instrs, later⟩ := ih rest
          exact ⟨.cons alike instrs, later⟩

/-- Blocks are alike if they are listed alike. -/
theorem alike_blocks (h : Forall₂ (AlikeLine d S S') (Ir.listing bs) (Ir.listing bs')) :
    Forall₂ (AlikeBlock d S S') bs bs' := by
  induction bs generalizing bs' with
  | nil =>
    cases bs' with
    | nil => exact .nil
    | cons b bs' =>
      rw [Ir.listing_cons] at h
      cases h
  | cons b bs ih =>
    cases bs' with
    | nil =>
      rw [Ir.listing_cons] at h
      cases h
    | cons b' bs' =>
      rw [Ir.listing_cons, Ir.listing_cons] at h
      cases h with
      | cons first rest =>
        cases first with
        | label moved =>
          obtain ⟨instrs, later⟩ := alike_of_plain_append rest
          exact .cons ⟨moved, instrs⟩ (ih later)

end Lines

/-! ## Values that stay -/

section Fixed

variable {S S' : List Ir.StringLit}

@[simp] theorem fixed_const (c : Int64) : Fixed S S' (.const c) := ⟨nofun, nofun⟩

@[simp] theorem fixed_temp : Fixed S S' (.temp t) := ⟨nofun, nofun⟩

@[simp] theorem fixed_missing : Fixed S S' .missing := ⟨nofun, nofun⟩

@[simp] theorem fixed_codeTemp (n : Nat) : Fixed S S' (Code.temp n) := fixed_temp

variable (S S') in
/-- An instruction all of whose values are fixed. -/
structure FixedInstr (i : Instr) : Prop where
  result : Fixed S S' i.result
  args : ∀ v ∈ i.args, Fixed S S' v

theorem FixedInstr.alike (h : FixedInstr S S' i) : AlikeInstr d S S' i i where
  op := rfl
  type := rfl
  operandType := rfl
  result := .fixed h.result
  args := forall₂_same.mpr fun v member => .fixed (h.args v member)
  argTypes := rfl
  align := rfl

variable {is : List Instr} {n m : Nat}

theorem alike_of_fixed (h : ∀ i ∈ is, FixedInstr S S' i) :
    Forall₂ (AlikeInstr d S S') is is := forall₂_same.mpr fun i member => (h i member).alike

variable (S S') in
/-- No name of a program is that of a string, where variables are kept as a layout says. -/
structure Steady (L : Layout) : Prop where
  address : ∀ x, Fixed S S' (L.address x)
  routine : ∀ f, Fixed S S' (.global ("pas_" ++ f))
  printf : Fixed S S' (.global "printf")
  scanf : Fixed S S' (.global "scanf")

/-- The values that a phrase comes to. -/
def Phrase.values : Phrase → List Value
  | .word _ v => [v]
  | .args _ _ vs => vs.map Prod.fst

theorem fixed_addressing {base i : Value} (hbase : Fixed S S' base) (hi : Fixed S S' i) {n : Nat}
    {lower : Int64} : ∀ j ∈ Code.addressing n base i lower, FixedInstr S S' j := by
  simp only [Code.addressing, forall_mem_cons, not_mem_nil, false_implies, implies_true, and_true]
  refine ⟨⟨?_, ?_⟩, ⟨?_, ?_⟩, ⟨?_, ?_⟩, ?_, ?_⟩ <;> simp [Code.compute, Code.extend, hbase, hi]

theorem fixed_load (h : Fixed S S' address) (n : Nat) : FixedInstr S S' (Code.load n address) :=
  ⟨fixed_codeTemp n, by simpa [Code.load] using h⟩

theorem fixed_bump {address amount : Value} (h : Fixed S S' address) (h' : Fixed S S' amount) {op : Ir.Op}
    (n : Nat) : ∀ j ∈ Code.bump op n address amount, FixedInstr S S' j := by
  simp only [Code.bump, forall_mem_cons, not_mem_nil, false_implies, implies_true, and_true]
  refine ⟨fixed_load h n, ⟨?_, ?_⟩, ?_, ?_⟩ <;> simp [Code.compute, Code.store, h, h']

theorem fixed_call (steady : Steady S S' L) {vs : List (Value × Ty)}
    (h : ∀ v ∈ vs.map Prod.fst, Fixed S S' v) (f : String) (result? : Option Nat) :
    FixedInstr S S' (Code.call f result? vs) := by
  constructor
  · cases result? with
    | none => exact fixed_missing
    | some n => exact fixed_codeTemp n
  · exact forall_mem_cons.mpr ⟨steady.routine f, h⟩

variable {L : Layout} (steady : Steady S S' L)

include steady

/-- Straight-line code has neither labels nor strings. -/
theorem Emits.fixed {ph : Phrase} (h : Emits L ph n is m) :
    (∀ i ∈ is, FixedInstr S S' i) ∧ ∀ v ∈ ph.values, Fixed S S' v := by
  induction h with
  | number | constant | noArgs => simp [Phrase.values]
  | var => simpa [Phrase.values] using fixed_load (steady.address _) _
  | bareCall => simpa [Phrase.values] using fixed_call steady (by simp) _ _
  | element _ _ ih =>
    have value := ih.2 _ (mem_singleton_self _)
    refine ⟨?_, by simp [Phrase.values]⟩
    rw [forall_mem_append, forall_mem_append, forall_mem_singleton]
    exact ⟨⟨ih.1, fixed_addressing (steady.address _) value⟩, fixed_load (fixed_codeTemp _) _⟩
  | binary _ _ _ left right =>
    refine ⟨?_, by simp [Phrase.values]⟩
    have operands := And.intro (left.2 _ (mem_singleton_self _)) (right.2 _ (mem_singleton_self _))
    rw [forall_mem_append, forall_mem_append, forall_mem_singleton]
    exact ⟨⟨left.1, right.1⟩, fixed_codeTemp _, by simpa [Code.compute] using operands⟩
  | call _ _ _ ih =>
    refine ⟨?_, by simp [Phrase.values]⟩
    rw [forall_mem_append, forall_mem_singleton]
    exact ⟨ih.1, fixed_call steady ih.2 _ _⟩
  | wordArg _ _ _ first rest =>
    refine ⟨forall_mem_append.mpr ⟨first.1, rest.1⟩, ?_⟩
    exact forall_mem_cons.mpr ⟨first.2 _ (mem_singleton_self _), rest.2⟩
  | arrayArg _ _ _ _ _ rest => exact ⟨rest.1, forall_mem_cons.mpr ⟨steady.address _, rest.2⟩⟩

theorem Emits.fixed_word (h : Emits L (.word t v) n is m) :
    (∀ i ∈ is, FixedInstr S S' i) ∧ Fixed S S' v :=
  ⟨(h.fixed steady).1, (h.fixed steady).2 v (mem_singleton_self v)⟩

theorem Aims.fixed (h : Aims L t a n is m) : (∀ i ∈ is, FixedInstr S S' i) ∧ Fixed S S' a := by
  cases h with
  | var => exact ⟨by simp, steady.address _⟩
  | element _ index =>
    obtain ⟨code, value⟩ := index.fixed_word steady
    exact ⟨forall_mem_append.mpr ⟨code, fixed_addressing (steady.address _) value⟩, fixed_codeTemp _⟩

end Fixed

/-! ## Simple statements -/

section Simple

variable {d : Int} {S S' : List Ir.StringLit} {v : Value} {ts : List Tree} {n m m' : Nat}
  {is is' : List Instr}

theorem Literal.alike (h : Literal S text v) (h' : Literal S' text v') :
    AlikeValue d S S' v v' := by
  obtain ⟨label, member, rfl⟩ := h
  obtain ⟨label', member', rfl⟩ := h'
  exact .string member member'

variable {L : Layout} (steady : Steady S S' L)

include steady

theorem alike_print {format : Value} (h : AlikeValue d S S' format format')
    (hv : AlikeValue d S S' v v') (type : Ty) :
    AlikeInstr d S S' (Code.print format (some (v, type))) (Code.print format' (some (v', type))) :=
  ⟨rfl, rfl, rfl, .fixed fixed_missing, .cons (.fixed steady.printf) (.cons h (.cons hv .nil)), rfl, rfl⟩

theorem Writes.alike (h : Writes L S ts n is m) (h' : Writes L S' ts n is' m') :
    Forall₂ (AlikeInstr d S S') is is' ∧ m' = m := by
  induction h generalizing is' m' with
  | nil =>
    cases h' with
    | nil => exact ⟨.nil, rfl⟩
  | text value format _ ih =>
    cases h' with
    | text value' format' rest =>
      obtain ⟨alike, rfl⟩ := ih rest
      exact ⟨.cons (alike_print steady (format.alike format') (value.alike value') _) alike, rfl⟩
    | word code => cases code
  | word code format _ ih =>
    cases h' with
    | text => cases code
    | word code' format' rest =>
      obtain ⟨rfl, rfl, rfl⟩ := code.unique_word code'
      obtain ⟨alike, rfl⟩ := ih rest
      obtain ⟨fixed, value⟩ := code.fixed_word steady
      refine ⟨rel_append (alike_of_fixed fixed) (.cons ?_ alike), rfl⟩
      exact alike_print steady (format.alike format') (.fixed value) .word

theorem Scans.alike (h : Scans L S ts n is m) (h' : Scans L S' ts n is' m') :
    Forall₂ (AlikeInstr d S S') is is' ∧ m' = m := by
  induction h generalizing is' m' with
  | nil =>
    cases h' with
    | nil => exact ⟨.nil, rfl⟩
  | cons code format _ ih =>
    cases h' with
    | cons code' format' rest =>
      obtain ⟨rfl, rfl, rfl⟩ := code.unique code'
      obtain ⟨alike, rfl⟩ := ih rest
      obtain ⟨fixed, address⟩ := code.fixed steady
      refine ⟨rel_append (alike_of_fixed fixed) (.cons ?_ alike), rfl⟩
      exact ⟨rfl, rfl, rfl, .fixed fixed_missing,
        .cons (.fixed steady.scanf) (.cons (format.alike format') (.cons (.fixed address) .nil)), rfl, rfl⟩

theorem Invokes.alike (h : Invokes L S f ts n is m) (h' : Invokes L S' f ts n is' m') :
    Forall₂ (AlikeInstr d S S') is is' ∧ m' = m := by
  have called {vs : List (Value × Ty)} {k : Nat} {params : List VarType} {js : List Instr}
      (args : Emits L (.args params ts vs) n js k) (result? : Option Nat) :
      Forall₂ (AlikeInstr d S S') (js ++ [Code.call f result? vs]) (js ++ [Code.call f result? vs]) := by
    obtain ⟨fixed, values⟩ := args.fixed steady
    apply alike_of_fixed
    rw [forall_mem_append, forall_mem_singleton]
    exact ⟨fixed, fixed_call steady values f result?⟩
  cases h with
  | procedure callable void args =>
    cases h' with
    | procedure callable' _ args' =>
      cases callable_unique callable callable'
      obtain ⟨rfl, rfl, rfl⟩ := args.unique_args args'
      exact ⟨called args none, rfl⟩
    | function callable' value => exact absurd (callable_unique callable callable' ▸ void) value
    | _ => grind [Static.Scope.Callable]
  | function callable value args =>
    cases h' with
    | procedure callable' void => exact absurd (callable_unique callable callable' ▸ void) value
    | function callable' _ args' =>
      cases callable_unique callable callable'
      obtain ⟨rfl, rfl, rfl⟩ := args.unique_args args'
      exact ⟨called args _, rfl⟩
    | _ => grind [Static.Scope.Callable]
  | write name args =>
    cases h' with
    | write _ args' => exact args.alike steady args'
    | _ => grind [Static.Scope.Callable, stepOp?]
  | writeln name args newline =>
    cases h' with
    | writeln _ args' newline' =>
      obtain ⟨alike, rfl⟩ := args.alike steady args'
      refine ⟨rel_append alike (.cons ?_ .nil), rfl⟩
      exact ⟨rfl, rfl, rfl, .fixed fixed_missing, .cons (.fixed steady.printf) (.cons (newline.alike newline') .nil),
        rfl, rfl⟩
    | _ => grind [Static.Scope.Callable, stepOp?]
  | readln name args =>
    cases h' with
    | readln _ args' => exact args.alike steady args'
    | _ => grind [Static.Scope.Callable, stepOp?]
  | step name op target =>
    cases h' with
    | step name' op' target' =>
      cases name.symm.trans name'
      cases op.symm.trans op'
      obtain ⟨rfl, rfl, rfl⟩ := target.unique target'
      obtain ⟨fixed, address⟩ := target.fixed steady
      refine ⟨alike_of_fixed ?_, rfl⟩
      exact forall_mem_append.mpr ⟨fixed, fixed_bump address (fixed_const 1) _⟩
    | _ => grind [Static.Scope.Callable, stepOp?]
  | stepBy name op amount target =>
    cases h' with
    | stepBy name' op' amount' target' =>
      cases name.symm.trans name'
      cases op.symm.trans op'
      obtain ⟨rfl, rfl, rfl⟩ := amount.unique_word amount'
      obtain ⟨rfl, rfl, rfl⟩ := target.unique target'
      obtain ⟨fixed, value⟩ := amount.fixed_word steady
      obtain ⟨fixed', address⟩ := target.fixed steady
      refine ⟨alike_of_fixed ?_, rfl⟩
      rw [forall_mem_append, forall_mem_append]
      exact ⟨⟨fixed, fixed'⟩, fixed_bump address value _⟩
    | _ => grind [Static.Scope.Callable, stepOp?]

omit steady in
/-- A function without parameters that stands as a statement is called as for its value. -/
theorem Invokes.eq_value (code : Emits L (.word (.name tok x) v) n is m)
    (free : L.Free x) (call : Invokes L S x [] n is' m') : is' = is ∧ m' = m := by
  cases code with
  | constant found => rw [free.1] at found; cases found
  | var holds => have free := free.2; rw [holds.2] at free; cases free
  | bareCall _ callable none value =>
    cases call with
    | procedure callable' void => exact absurd (callable_unique callable callable' ▸ void) value
    | function callable' _ args =>
      cases callable_unique callable callable'
      rw [none] at args
      cases args with
      | noArgs => exact ⟨rfl, rfl⟩
    | _ => grind [Static.Scope.Callable]

omit steady in
theorem Aims.not_array
    (h : Aims L (.name tok x) a n is m) (holds : L.Holds x type) : type.isArray ≠ true := by
  cases h with
  | var word =>
    cases holds_unique word holds
    exact Bool.false_ne_true

theorem Straight.alike (h : Straight L S t n is m) (h' : Straight L S' t n is' m') :
    Forall₂ (AlikeInstr d S S') is is' ∧ m' = m := by
  cases h with
  | value code =>
    have fixed : Forall₂ (AlikeInstr d S S') is is := alike_of_fixed (code.fixed steady).1
    cases h' with
    | value code' =>
      obtain ⟨-, rfl, rfl⟩ := code.unique_word code'
      exact ⟨fixed, rfl⟩
    | bareCall free call =>
      obtain ⟨rfl, rfl⟩ := call.eq_value code free
      exact ⟨fixed, rfl⟩
  | bareCall free call =>
    cases h' with
    | value code =>
      obtain ⟨rfl, rfl⟩ := call.eq_value code free
      exact ⟨alike_of_fixed (code.fixed steady).1, rfl⟩
    | bareCall _ call' => exact call.alike steady call'
  | element code =>
    cases h' with
    | element code' =>
      obtain ⟨-, rfl, rfl⟩ := code.unique_word code'
      exact ⟨alike_of_fixed (code.fixed steady).1, rfl⟩
  | call call =>
    cases h' with
    | call call' => exact call.alike steady call'
  | assign value target =>
    cases h' with
    | assign value' target' =>
      obtain ⟨rfl, rfl, rfl⟩ := value.unique_word value'
      obtain ⟨rfl, rfl, rfl⟩ := target.unique target'
      obtain ⟨fixed, word⟩ := value.fixed_word steady
      obtain ⟨fixed', address⟩ := target.fixed steady
      refine ⟨alike_of_fixed ?_, rfl⟩
      rw [forall_mem_append, forall_mem_append, forall_mem_singleton]
      exact ⟨⟨fixed, fixed'⟩, fixed_missing, by simp [Code.store, word, address]⟩
    | assignArray holds array => exact absurd array (target.not_array holds)
  | assignArray holds array =>
    cases h' with
    | assign _ target => exact absurd array (target.not_array holds)
    | assignArray holds' =>
      cases holds_unique holds holds'
      refine ⟨.cons (FixedInstr.alike ⟨fixed_missing, ?_⟩) .nil, rfl⟩
      simp [Code.copy, steady.address]

end Simple

/-! ## Control flow -/

section Control

variable {d : Int} {S S' : List Ir.StringLit}

theorem alike_jump (h : Moved d l l') : AlikeInstr d S S' (Code.jump l) (Code.jump l') :=
  ⟨rfl, rfl, rfl, .fixed fixed_missing, .cons (.label h) .nil, rfl, rfl⟩

variable {v : Value} {k k' : Nat}

theorem alike_branch (hv : Fixed S S' v) (hyes : Moved d yes yes')
    (hno : Moved d no no') : AlikeInstr d S S' (Code.branch v yes no) (Code.branch v yes' no') :=
  have args := Forall₂.cons (.fixed hv) (.cons (.label hyes) (.cons (.label hno) .nil))
  ⟨rfl, rfl, rfl, .fixed fixed_missing, args, rfl, rfl⟩

theorem alike_rejoin (ends : Bool) (h : Moved d l l') :
    Forall₂ (AlikeLine d S S') (rejoin ends l) (rejoin ends l') := by
  cases ends with
  | true => exact .nil
  | false => exact .cons (.instr (alike_jump h)) .nil

/-- The labels that a statement takes from the first free number on. -/
theorem moved_add (h : (k' : Int) = k + d) (hint : String) (i : Nat) :
    Moved d (numbered hint (k + i)) (numbered hint (k' + i)) := .numbered (by omega)

theorem alike_branchLines (hk : (k' : Int) = k + d) {cond : List Instr}
    (hcond : ∀ i ∈ cond, FixedInstr S S' i) (hv : Fixed S S' v)
    (hyes : Forall₂ (AlikeLine d S S') yes yes') (hno : Forall₂ (AlikeLine d S S') no no') :
    Forall₂ (AlikeLine d S S') (Code.branchLines k cond v yes yesEnds no noEnds)
      (Code.branchLines k' cond v yes' yesEnds no' noEnds) := by
  have yesLabel := moved_add hk "if_then" 0
  have noLabel := moved_add hk "if_else" 1
  have joinLabel := moved_add hk "if_join" 2
  apply alike_append (alike_plain (alike_of_fixed hcond))
  apply Forall₂.cons (.instr (alike_branch hv yesLabel noLabel))
  apply Forall₂.cons (.label yesLabel)
  apply alike_append (alike_append hyes (alike_rejoin yesEnds joinLabel))
  apply Forall₂.cons (.label noLabel)
  apply alike_append (alike_append hno (alike_rejoin noEnds joinLabel))
  split
  · exact .nil
  · exact .cons (.label joinLabel) .nil

theorem alike_again (haddress : Fixed S S' address)
    {cond : String} (h : Moved d cond cond') : Forall₂ (AlikeLine d S S') (Code.again down ends n address cond)
      (Code.again down ends n address cond') := by
  unfold Code.again
  split
  · exact .nil
  · apply alike_plain
    exact rel_append (alike_of_fixed (fixed_bump haddress (fixed_const 1) n)) (.cons (alike_jump h) .nil)

theorem alike_roundLines (hc : Moved d c c') (hb : Moved d b b') (ha : Moved d a a')
    {front test : List Instr} (hfront : ∀ i ∈ front, FixedInstr S S' i) (htest : ∀ i ∈ test, FixedInstr S S' i)
    (hv : Fixed S S' v) (hls : Forall₂ (AlikeLine d S S') ls ls')
    (hback : Forall₂ (AlikeLine d S S') back back') :
    Forall₂ (AlikeLine d S S') (Code.roundLines c b a front test v ls back)
      (Code.roundLines c' b' a' front test v ls' back') := by
  have body := alike_append (alike_append hls hback) (.cons (.label ha) .nil)
  have branch := Forall₂.cons (.instr (alike_branch hv hb ha)) (.cons (.label hb) body)
  have cond := alike_append (alike_plain (alike_of_fixed htest)) branch
  exact alike_append (alike_plain (alike_of_fixed hfront)) (.cons (.instr (alike_jump hc)) (.cons (.label hc) cond))

/-- Code of one piece of a body with labels from `k` on, and with labels from `k'` on. -/
structure AlikeCode (d : Int) (S S' : List Ir.StringLit) (ls ls' : List Line) (ends ends' : Bool)
    (n n' k k' : Nat) : Prop where
  lines : Forall₂ (AlikeLine d S S') ls ls'
  ends : ends' = ends
  temps : n' = n
  labels : (k' : Int) = k + d

variable {L : Layout} (steady : Steady S S' L)

include steady

/-- The code of a piece of a body is determined up to the numbers of labels and the labels of
strings. -/
theorem Lowers.alike (hret : Moved d ret ret')
    (h : Lowers L S ret brk piece n k ls ends n₁ k₁) (hbrk : Option.Rel (Moved d) brk brk')
    (hk : (k' : Int) = k + d) (h' : Lowers L S' ret' brk' piece n k' ls' ends' n₁' k₁') :
    AlikeCode d S S' ls ls' ends ends' n₁ n₁' k₁ k₁' := by
  -- the piece is the same, so the rule of the first code leaves one rule for the second; that a
  -- sequence ends at the same statement in both is part of what is shown (`ends`)
  induction h generalizing brk' k' ls' ends' n₁' k₁' with
  | straight code =>
    cases h' with
    | straight code' =>
      obtain ⟨alike, rfl⟩ := code.alike steady code'
      exact ⟨alike_plain alike, rfl, rfl, hk⟩
    | _ => cases code
  | absent =>
    cases h' with
    | straight code => cases code
    | absent => exact ⟨.nil, rfl, rfl, hk⟩
  | leave =>
    cases h' with
    | straight code => cases code
    | leave =>
      cases hbrk with
      | some moved => exact ⟨.cons (.instr (alike_jump moved)) .nil, rfl, rfl, hk⟩
  | exit =>
    cases h' with
    | straight code => cases code
    | exit => exact ⟨.cons (.instr (alike_jump hret)) .nil, rfl, rfl, hk⟩
  | branch cond _ _ yes no =>
    cases h' with
    | straight code => cases code
    | branch cond' yes' no' =>
      obtain ⟨rfl, rfl, rfl⟩ := cond.unique_word cond'
      obtain ⟨fixed, value⟩ := cond.fixed_word steady
      obtain ⟨yesLines, rfl, rfl, hk₁⟩ := yes hbrk (by omega) yes'
      obtain ⟨noLines, rfl, rfl, hk₂⟩ := no hbrk hk₁ no'
      exact ⟨alike_branchLines hk fixed value yesLines noLines, rfl, rfl, hk₂⟩
  | @count x _ _ _ _ _ _ _ _ _ _ _ _ _ _ _ _ _ _ _ start stop _ body =>
    cases h' with
    | straight code => cases code
    | count _ start' stop' body' =>
      obtain ⟨rfl, rfl, rfl⟩ := start.unique_word start'
      obtain ⟨rfl, rfl, rfl⟩ := stop.unique_word stop'
      obtain ⟨fixed, first⟩ := start.fixed_word steady
      obtain ⟨fixed', last⟩ := stop.fixed_word steady
      obtain ⟨lines, rfl, rfl, hk₁⟩ := body (.some (moved_add hk "for_after" 2)) (by omega) body'
      have condLabel := moved_add hk "for_cond" 0
      have held := steady.address x
      refine ⟨?_, rfl, rfl, hk₁⟩
      rw [Code.countLines_eq, Code.countLines_eq]
      refine alike_roundLines condLabel (moved_add hk _ 1) (moved_add hk _ 2) ?_ ?_ (fixed_codeTemp _) lines
        (alike_again held condLabel)
      · rw [forall_mem_append, forall_mem_append, forall_mem_singleton]
        exact ⟨⟨fixed, fixed'⟩, fixed_missing, by simp [Code.store, held, first]⟩
      · rw [forall_mem_cons, forall_mem_singleton]
        exact ⟨fixed_load held _, fixed_codeTemp _, by simp [Code.compute, last]⟩
  | loop cond _ body =>
    cases h' with
    | straight code => cases code
    | loop cond' body' =>
      obtain ⟨rfl, rfl, rfl⟩ := cond.unique_word cond'
      obtain ⟨fixed, value⟩ := cond.fixed_word steady
      obtain ⟨lines, rfl, rfl, hk₁⟩ := body (.some (moved_add hk "while_after" 2)) (by omega) body'
      have condLabel := moved_add hk "while_cond" 0
      refine ⟨?_, rfl, rfl, hk₁⟩
      rw [Code.loopLines_eq, Code.loopLines_eq]
      exact alike_roundLines condLabel (moved_add hk _ 1) (moved_add hk _ 2) (forall_mem_nil _) fixed value lines
        (alike_rejoin _ condLabel)
  | block _ ih =>
    cases h' with
    | straight code => cases code
    | block stmts => exact ih hbrk hk stmts
  | nil =>
    cases h' with
    | nil => exact ⟨.nil, rfl, rfl, hk⟩
  | last _ ih =>
    cases h' with
    | last stmt => exact ih hbrk hk stmt
    | cons first => cases (ih hbrk hk first).ends
  | cons _ _ first rest =>
    cases h' with
    | last stmt => cases (first hbrk hk stmt).ends
    | cons first' rest' =>
      obtain ⟨lines, -, rfl, hk₁⟩ := first hbrk hk first'
      obtain ⟨lines', rfl, rfl, hk₂⟩ := rest hbrk hk₁ rest'
      exact ⟨alike_append lines lines', rfl, rfl, hk₂⟩

end Control

end MiniPascal.Lower
