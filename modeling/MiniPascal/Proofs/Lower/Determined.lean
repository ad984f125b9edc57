import MiniPascal.Proofs.Lower.Code
import MiniPascal.Proofs.Tree.Print

/-!
# The code of a body is determined

The relations of `Lower.Code` leave no choice: straight-line code and its value follow from the source,
from what names stand for and where variables are kept, and from the first free temporary. Neither the
places in the source nor which routines are given a body have a part in it; `Layout.opened` forgets the
one and `Tree.bare` the other.
-/

namespace MiniPascal.Lower

open Phrase
open Ir (Value Instr Ty plain)
open Static (Scope Signature)

/-! ## What code depends on -/

/-- A layout in which every routine counts as defined. -/
def Layout.opened (L : Layout) : Layout := { L with defined := fun _ => True }

variable {f : String} {ph : Phrase} {n m m' : Nat} {is is' : List Instr} {t : Tree} {ts : List Tree}

theorem Layout.callable_opened {L : Layout} {sig : Signature} (h : L.Callable f sig) :
    L.opened.Callable f sig := ⟨h.1, h.2.1, trivial⟩

/-- What code is made of, without places. -/
def Phrase.bare : Phrase → Phrase
  | .word t v => .word t.bare v
  | .args params ts vs => .args params (ts.map Tree.bare) vs

variable {L : Layout} {strings : List Ir.StringLit}

theorem Emits.bare (h : Emits L ph n is m) : Emits L.opened ph.bare n is m := by
  induction h with
  | number => exact .number
  | constant h => exact .constant h
  | var h => exact .var h
  | bareCall free callable none value => exact .bareCall free (L.callable_opened callable) none value
  | element holds _ ih => exact .element holds ih
  | binary op _ _ left right => exact .binary op left right
  | call callable value _ ih =>
    rw [Phrase.bare, Tree.bare, Tree.bareEach_eq_map]
    exact .call (L.callable_opened callable) value ih
  | noArgs => exact .noArgs
  | wordArg word _ _ first rest => exact .wordArg word first rest
  | arrayArg array holds isArray size _ ih => exact .arrayArg array holds isArray size ih

theorem Aims.bare (h : Aims L t a n is m) : Aims L.opened t.bare a n is m := by
  cases h with
  | var holds => exact .var holds
  | element holds index => exact .element holds index.bare

theorem Writes.bare (h : Writes L strings ts n is m) : Writes L.opened strings (ts.map Tree.bare) n is m := by
  induction h with
  | nil => exact .nil
  | text value format _ ih => exact .text value format ih
  | word value format _ ih => exact .word value.bare format ih

theorem Scans.bare (h : Scans L strings ts n is m) : Scans L.opened strings (ts.map Tree.bare) n is m := by
  induction h with
  | nil => exact .nil
  | cons target format _ ih => exact .cons target.bare format ih

theorem Invokes.bare (h : Invokes L strings f ts n is m) : Invokes L.opened strings f (ts.map Tree.bare) n is m := by
  cases h with
  | procedure callable void args => exact .procedure (L.callable_opened callable) void args.bare
  | function callable value args => exact .function (L.callable_opened callable) value args.bare
  | write name args => exact .write name args.bare
  | writeln name args newline => exact .writeln name args.bare newline
  | readln name args => exact .readln name args.bare
  | step name op target => exact .step name op target.bare
  | stepBy name op amount target => exact .stepBy name op amount.bare target.bare

theorem Straight.bare (h : Straight L strings t n is m) : Straight L.opened strings t.bare n is m := by
  cases h with
  | value code => exact .value code.bare
  | bareCall free code => exact .bareCall free code.bare
  | element code => exact .element code.bare
  | call code =>
    rw [Tree.bare, Tree.bareEach_eq_map]
    exact .call code.bare
  | assign value target => exact .assign value.bare target.bare
  | assignArray holds isArray holds' isArray' size => exact .assignArray holds isArray holds' isArray' size

/-- A piece of a body, without places. -/
def Piece.bare : Piece → Piece
  | .stmt t => .stmt t.bare
  | .stmts ts => .stmts (ts.map Tree.bare)

theorem Lowers.bare
 (h : Lowers L strings ret brk piece n k ls ends n' k') :
    Lowers L.opened strings ret brk piece.bare n k ls ends n' k' := by
  induction h with
  | straight code => exact .straight code.bare
  | absent => exact .absent
  | leave => exact .leave
  | exit => exact .exit
  | branch cond _ _ yes no => exact .branch cond.bare yes no
  | count holds start stop _ body => exact .count holds start.bare stop.bare body
  | loop cond _ body => exact .loop cond.bare body
  | block _ ih =>
    rw [Piece.bare, Tree.bare, Tree.bareEach_eq_map]
    exact .block ih
  | nil => exact .nil
  | last _ ih => exact .last ih
  | cons _ _ first rest => exact .cons first rest

/-! ## Straight-line code -/

/-- What a phrase asks for, without what it comes to. -/
def Phrase.source : Phrase → Phrase
  | .word t _ => .word t .missing
  | .args params ts _ => .args params ts []

theorem Phrase.source_word (h : ph.source = .word t .missing) : ∃ v, ph = .word t v := by
  cases ph with
  | word t' v =>
    obtain ⟨rfl, -⟩ := word.inj h
    exact ⟨v, rfl⟩
  | args => cases h

theorem Phrase.source_args (h : ph.source = .args params ts []) :
    ∃ vs, ph = .args params ts vs := by
  cases ph with
  | word => cases h
  | args _ _ vs =>
    obtain ⟨rfl, rfl, -⟩ := args.inj h
    exact ⟨vs, rfl⟩

theorem holds_unique {Γ : Scope} {x : String} {type type' : VarType} (h : Γ.Holds x type)
    (h' : Γ.Holds x type') : type = type' := Option.some.inj (h.2.symm.trans h'.2)

theorem callable_unique {Γ : Scope} {sig sig' : Signature} (h : Γ.Callable f sig) (h' : Γ.Callable f sig') :
    sig = sig' := Option.some.inj (h.2.1.symm.trans h'.2.1)

/-- An expression or list of arguments has one code, and it comes to one value. -/
theorem Emits.unique {ph' : Phrase} (h : Emits L ph n is m) (h' : Emits L ph' n is' m')
    (same : ph'.source = ph.source) : ph' = ph ∧ is' = is ∧ m' = m := by
  induction h generalizing ph' is' m' with
  | number =>
    obtain ⟨v, rfl⟩ := source_word same
    cases h' with
    | number => exact ⟨rfl, rfl, rfl⟩
  | constant found =>
    obtain ⟨v, rfl⟩ := source_word same
    cases h' with
    | constant found' =>
      rw [found] at found'
      cases found'
      exact ⟨rfl, rfl, rfl⟩
    | var holds => rw [holds.1] at found; cases found
    | bareCall free => rw [free.1] at found; cases found
  | var holds =>
    obtain ⟨v, rfl⟩ := source_word same
    cases h' with
    | constant found => rw [holds.1] at found; cases found
    | var => exact ⟨rfl, rfl, rfl⟩
    | bareCall free => have free := free.2; rw [holds.2] at free; cases free
  | bareCall free callable none value =>
    obtain ⟨v, rfl⟩ := source_word same
    cases h' with
    | constant found => rw [free.1] at found; cases found
    | var holds => have free := free.2; rw [holds.2] at free; cases free
    | bareCall => exact ⟨rfl, rfl, rfl⟩
  | element holds _ ih =>
    obtain ⟨v, rfl⟩ := source_word same
    cases h' with
    | element holds' index =>
      cases holds_unique holds holds'
      obtain ⟨value, rfl, rfl⟩ := ih index rfl
      cases value
      exact ⟨rfl, rfl, rfl⟩
  | binary op _ _ left right =>
    obtain ⟨v, rfl⟩ := source_word same
    cases h' with
    | binary op' left' right' =>
      obtain ⟨value, rfl, rfl⟩ := left left' rfl
      cases value
      obtain ⟨value, rfl, rfl⟩ := right right' rfl
      cases value
      rw [op] at op'
      cases op'
      exact ⟨rfl, rfl, rfl⟩
  | call callable _ _ ih =>
    obtain ⟨v, rfl⟩ := source_word same
    cases h' with
    | call callable' _ args =>
      cases callable_unique callable callable'
      obtain ⟨values, rfl, rfl⟩ := ih args rfl
      cases values
      exact ⟨rfl, rfl, rfl⟩
  | noArgs =>
    obtain ⟨vs, rfl⟩ := source_args same
    cases h' with
    | noArgs => exact ⟨rfl, rfl, rfl⟩
  | wordArg word _ _ first rest =>
    obtain ⟨vs, rfl⟩ := source_args same
    cases h' with
    | wordArg _ first' rest' =>
      obtain ⟨value, rfl, rfl⟩ := first first' rfl
      cases value
      obtain ⟨values, rfl, rfl⟩ := rest rest' rfl
      cases values
      exact ⟨rfl, rfl, rfl⟩
    | arrayArg array => rw [word] at array; cases array
  | arrayArg array holds _ _ _ rest =>
    obtain ⟨vs, rfl⟩ := source_args same
    cases h' with
    | wordArg word => rw [word] at array; cases array
    | arrayArg _ _ _ _ rest' =>
      obtain ⟨values, rfl, rfl⟩ := rest rest' rfl
      cases values
      exact ⟨rfl, rfl, rfl⟩

theorem Emits.unique_word (h : Emits L (.word t v) n is m) (h' : Emits L (.word t v') n is' m') :
    v' = v ∧ is' = is ∧ m' = m := by
  obtain ⟨value, code, next⟩ := h.unique h' rfl
  exact ⟨(word.inj value).2, code, next⟩

theorem Emits.unique_args
    (h : Emits L (.args params ts vs) n is m) (h' : Emits L (.args params ts vs') n is' m') :
    vs' = vs ∧ is' = is ∧ m' = m := by
  obtain ⟨values, code, next⟩ := h.unique h' rfl
  exact ⟨(args.inj values).2.2, code, next⟩

theorem Aims.unique {a a' : Value} (h : Aims L t a n is m) (h' : Aims L t a' n is' m') :
    a' = a ∧ is' = is ∧ m' = m := by
  cases h with
  | var =>
    cases h' with
    | var => exact ⟨rfl, rfl, rfl⟩
  | element holds index =>
    cases h' with
    | element holds' index' =>
      cases holds_unique holds holds'
      obtain ⟨rfl, rfl, rfl⟩ := index.unique_word index'
      exact ⟨rfl, rfl, rfl⟩

end MiniPascal.Lower
