import MiniPascal.Proofs.Lower.Acceptance
import MiniPascal.Proofs.Lower.Instructions

/-!
# Subscripts and their code

Every subscript of a body that is reached has a site of its own in the code: the code of its index,
four instructions that come from there to the address of the element, and the instructions that read
or write the element. `subscripts` lists the subscripts of a piece of a program in the order of the
code, and `Addressed` says that the code has a site for each of them in this order, and no other
instruction that widens a word. `Compiled.addressed` says so of a whole program.
-/

open List

namespace MiniPascal.Lower

open Ir (Value Instr Ty Line plain)
open Static (Header Outline leaves someLeaves)

/-! ## Subscripts -/

/-- An array with an index. -/
structure Subscript where
  array : String
  index : Tree

/-- The subscripts of the arguments of a call, in the order of their code. The amount of a step comes
before the target. -/
def arrange (f : String) (parts : List (List Subscript)) : List Subscript :=
  (if ((Builtin.ofName? f).bind stepOp?).isSome then parts.reverse else parts).flatten

mutual

/-- The subscripts that are reached, in the order of their code. -/
def subscripts : Tree → List Subscript
  | .element _ a index => subscripts index ++ [⟨a, index⟩]
  | .binary _ _ left right => subscripts left ++ subscripts right
  | .call _ f args => arrange f (subscriptsEach args)
  | .assign _ target value => subscripts value ++ subscripts target
  | .branch _ cond yes no => subscripts cond ++ (subscripts yes ++ subscripts no)
  | .count _ _ start stop _ body => subscripts start ++ subscripts stop ++ subscripts body
  | .loop _ cond body => subscripts cond ++ subscripts body
  | .block _ stmts => subscriptsUntil stmts
  | _ => []

def subscriptsEach : List Tree → List (List Subscript)
  | [] => []
  | t :: ts => subscripts t :: subscriptsEach ts

/-- The subscripts of statements, up to one that always leaves. -/
def subscriptsUntil : List Tree → List Subscript
  | [] => []
  | t :: ts => subscripts t ++ if leaves t then [] else subscriptsUntil ts

end

def Phrase.subscripts : Phrase → List Subscript
  | .word t _ => Lower.subscripts t
  | .args _ ts _ => (subscriptsEach ts).flatten

def Piece.subscripts : Piece → List Subscript
  | .stmt t => Lower.subscripts t
  | .stmts ts => subscriptsUntil ts

/-! ## Sites -/

/-- The code that reads or writes the cell at an address. -/
inductive Accesses (a : Value) : List Instr → Prop
  | load : Accesses a [Code.load n a]
  | store : Accesses a [Code.store a v]
  | scan {format : Value} : Accesses a [Code.scan format a]
  | step : stepOp? b = some op → Accesses a (Code.bump op n a v)

/-- The code of one subscript, in a function with `taken` slots: behind the code of the index, that
of the address, from the value of the index, and what is done at this address. -/
inductive Site (L : Layout) (taken : Nat) (s : Subscript) (index : List Instr) : List Instr → Prop
  | mk {lower : Int64} :
    taken ≤ n → L.Holds s.array (.array lower upper .integer) → Emits L (.word s.index i) n index m →
    Accesses (Code.temp (m + 3)) use →
    Site L taken s index (Code.addressing m (L.address s.array) i lower ++ use)

/-- Code with one site for each of the subscripts, in their order. Those in the index of a subscript
have their sites in the code of this index. Nothing but a site widens a word. -/
inductive Addressed (S : Subscript → List Instr → List Instr → Prop) :
    List Subscript → List Instr → Prop
  | nil : Addressed S [] []
  | other : i.op ≠ .extsw → Addressed S ss is → Addressed S ss (i :: is)
  | site :
    Addressed S nested index → S s index js → Addressed S ss is →
    Addressed S (nested ++ s :: ss) (index ++ (js ++ is))

namespace Addressed

variable {S T : Subscript → List Instr → List Instr → Prop} {ss ss' : List Subscript}
  {is js : List Instr}

theorem append (h : Addressed S ss is) (h' : Addressed S ss' js) :
    Addressed S (ss ++ ss') (is ++ js) := by
  induction h with
  | nil => exact h'
  | other plain _ ih => exact .other plain ih
  | site index here _ _ ih =>
    rw [append_assoc, cons_append, append_assoc, append_assoc]
    exact .site index here ih

theorem others (plain : ∀ i ∈ is, i.op ≠ .extsw) : Addressed S [] is := by
  induction is with
  | nil => exact .nil
  | cons i is ih =>
    obtain ⟨first, rest⟩ := forall_mem_cons.mp plain
    exact .other first (ih rest)

/-- Instructions behind sites. -/
theorem before (h : Addressed S ss is) (plain : ∀ i ∈ js, i.op ≠ .extsw) :
    Addressed S ss (is ++ js) := by
  have both := h.append (others plain)
  rwa [append_nil] at both

theorem one (index : Addressed S ss is) (here : S s is js) :
    Addressed S (ss ++ [s]) (is ++ js) := by
  have alone := Addressed.site index here .nil
  rwa [append_nil] at alone

theorem mono (h : Addressed S ss is) (imp : ∀ s is js, S s is js → T s is js) :
    Addressed T ss is := by
  induction h with
  | nil => exact .nil
  | other plain _ ih => exact .other plain ih
  | site _ here _ ihIndex ih => exact .site ihIndex (imp _ _ _ here) ih

end Addressed

/-! ## Expressions and simple statements -/

section Bodies

variable {L : Layout} {strings : List Ir.StringLit} {taken n m : Nat} {is : List Instr}

theorem ne_extsw {i : Instr} (other : (i.op == .extsw) = false) : i.op ≠ .extsw := ne_of_beq_false other

theorem operation?_ne_extsw (known : operation? op = some operation) :
    operation ≠ .extsw := by
  cases op <;> cases known <;> decide

theorem stepOp?_ne_extsw (known : stepOp? b = some op) : op ≠ .extsw := by
  cases b <;> cases known <;> decide

theorem ne_extsw_bump {op : Ir.Op} (plain : op ≠ .extsw) {address amount : Value} :
    ∀ i ∈ Code.bump op n address amount, i.op ≠ .extsw := by
  simp only [Code.bump, forall_mem_cons]
  exact ⟨ne_extsw rfl, plain, ne_extsw rfl, forall_mem_nil _⟩

theorem Accesses.ne_extsw {a : Value} (h : Accesses a is) : ∀ i ∈ is, i.op ≠ .extsw := by
  cases h with
  | step known => exact ne_extsw_bump (stepOp?_ne_extsw known)
  | _ => exact forall_mem_singleton.mpr (Lower.ne_extsw rfl)

/-- The code of an expression has a site for each of its subscripts. -/
theorem Emits.addressed {phrase : Phrase} (h : Emits L phrase n is m) (le : taken ≤ n) :
    Addressed (Site L taken) phrase.subscripts is := by
  induction h with
  | number | constant | noArgs => exact .nil
  | var | bareCall => exact .others (forall_mem_singleton.mpr (ne_extsw rfl))
  | element holds index ih =>
    rw [append_assoc]
    exact (ih le).one (.mk le holds index .load)
  | binary known left _ ihLeft ihRight =>
    refine ((ihLeft le).append (ihRight (le.trans left.le))).before ?_
    exact forall_mem_singleton.mpr (operation?_ne_extsw known)
  | @call f _ args _ _ _ _ _ callable _ _ ih =>
    have order : arrange f (subscriptsEach args) = (subscriptsEach args).flatten := by
      rw [arrange, callable.1]
      rfl
    rw [Phrase.subscripts, subscripts, order]
    exact (ih le).before (forall_mem_singleton.mpr (ne_extsw rfl))
  | wordArg _ first _ ihFirst ihRest => exact (ihFirst le).append (ihRest (le.trans first.le))
  | arrayArg _ _ _ _ _ ih => exact ih le

/-- The code that comes to the address of a target, with that of the access behind it. -/
theorem Aims.addressed (h : Aims L t a n is m)
    (le : taken ≤ n) (access : Accesses a use) :
    Addressed (Site L taken) (subscripts t) (is ++ use) := by
  cases h with
  | var => exact .others access.ne_extsw
  | element holds index =>
    rw [append_assoc]
    exact (index.addressed le).one (.mk le holds index access)

theorem Writes.addressed {ts : List Tree} (h : Writes L strings ts n is m) (le : taken ≤ n) :
    Addressed (Site L taken) (subscriptsEach ts).flatten is := by
  induction h with
  | nil => exact .nil
  | text _ _ _ ih => exact .other (ne_extsw rfl) (ih le)
  | word word _ _ ih =>
    exact (word.addressed le).append (.other (ne_extsw rfl) (ih (le.trans word.le)))

theorem Scans.addressed (h : Scans L strings ts n is m) (le : taken ≤ n) :
    Addressed (Site L taken) (subscriptsEach ts).flatten is := by
  induction h with
  | nil => exact .nil
  | cons target _ _ ih =>
    rw [append_cons]
    exact (target.addressed le .scan).append (ih (le.trans target.le))

theorem Invokes.addressed {f : String} {args : List Tree} (h : Invokes L strings f args n is m)
    (le : taken ≤ n) : Addressed (Site L taken) (arrange f (subscriptsEach args)) is := by
  have inOrder {f : String} {parts : List (List Subscript)}
      (plain : (Builtin.ofName? f).bind stepOp? = none) : arrange f parts = parts.flatten := by
    rw [arrange, plain]
    rfl
  cases h with
  | procedure callable _ args | function callable _ args =>
    rw [inOrder (by rw [callable.1]; rfl)]
    exact (args.addressed le).before (forall_mem_singleton.mpr (ne_extsw rfl))
  | write builtin writes =>
    rw [inOrder (by rw [builtin]; rfl)]
    exact writes.addressed le
  | writeln builtin writes =>
    rw [inOrder (by rw [builtin]; rfl)]
    exact (writes.addressed le).before (forall_mem_singleton.mpr (ne_extsw rfl))
  | readln builtin scans =>
    rw [inOrder (by rw [builtin]; rfl)]
    exact scans.addressed le
  | step builtin known target =>
    have order (parts : List Subscript) : arrange f [parts] = parts := by
      rw [arrange, builtin, Option.bind_some, known]
      exact append_nil _
    rw [subscriptsEach, subscriptsEach, order]
    exact target.addressed le (.step known)
  | stepBy builtin known amount target =>
    have order (first second : List Subscript) : arrange f [first, second] = second ++ first := by
      rw [arrange, builtin, Option.bind_some, known]
      exact congrArg (second ++ ·) (append_nil first)
    rw [subscriptsEach, subscriptsEach, subscriptsEach, order, append_assoc]
    exact (amount.addressed le).append (target.addressed (le.trans amount.le) (.step known))

theorem Straight.addressed {t : Tree} (h : Straight L strings t n is m) (le : taken ≤ n) :
    Addressed (Site L taken) (subscripts t) is := by
  cases h with
  | value word | element word => exact word.addressed le
  | @bareCall x _ _ _ _ _ invokes =>
    have order : arrange x (subscriptsEach []) = [] := by
      rw [arrange, subscriptsEach, reverse_nil, ite_self]
      rfl
    have code := invokes.addressed le
    rw [order] at code
    exact code
  | call invokes => exact invokes.addressed le
  | assign value target =>
    rw [append_assoc]
    exact (value.addressed le).append (target.addressed (le.trans value.le) .store)
  | assignArray => exact .others (forall_mem_singleton.mpr (ne_extsw rfl))

/-! ## Statements -/

/-- Whether a piece always leaves. -/
def Piece.leaves : Piece → Bool
  | .stmt t => Static.leaves t
  | .stmts ts => someLeaves ts

theorem Lowers.ends_eq {n : Nat}
 (h : Lowers L strings ret brk piece n k ls ends n' k') : ends = piece.leaves := by
  induction h with
  | straight straight => cases straight <;> rfl
  | branch _ _ _ yes no => rw [yes, no]; rfl
  | block _ ih => exact ih
  | last _ ih => rw [Piece.leaves, someLeaves, ← Piece.leaves, ← ih, Bool.true_or]
  | cons _ _ first rest =>
    have stays : Static.leaves _ = false := first.symm
    rw [Piece.leaves, someLeaves, stays, Bool.false_or]
    exact rest
  | _ => rfl

theorem ne_extsw_rejoin (ends : Bool) {l : String} : ∀ i ∈ instrsOf (rejoin ends l), i.op ≠ .extsw := by
  cases ends with
  | true => exact forall_mem_nil _
  | false => exact forall_mem_singleton.mpr (ne_extsw rfl)

theorem ne_extsw_again {down ends : Bool} {address : Value} {cond : String} :
    ∀ i ∈ instrsOf (Code.again down ends n address cond), i.op ≠ .extsw := by
  cases ends with
  | true => exact forall_mem_nil _
  | false =>
    have lines : instrsOf (Code.again down false n address cond) =
        Code.bump (if down then .sub else .add) n address (.const 1) ++ [Code.jump cond] := by
      simp [Code.again]
    rw [lines, forall_mem_append]
    refine ⟨ne_extsw_bump ?_, forall_mem_singleton.mpr (ne_extsw rfl)⟩
    cases down <;> decide

/-- The code of a statement has a site for each subscript that is reached. -/
theorem Lowers.addressed {ret : String} {brk : Option String} {piece : Piece} {n k n' k' : Nat}
    {ls : List Line} {ends : Bool} (h : Lowers L strings ret brk piece n k ls ends n' k')
    (le : taken ≤ n) : Addressed (Site L taken) piece.subscripts (instrsOf ls) := by
  induction h with
  | straight straight =>
    rw [instrsOf_plain]
    exact straight.addressed le
  | absent | nil => exact .nil
  | leave | exit => exact .others (forall_mem_singleton.mpr (ne_extsw rfl))
  | @branch _ _ _ _ _ _ _ _ yesEnds _ _ _ _ noEnds _ _ _ _ cond yes _ ihYes ihNo =>
    have join (l : String) : instrsOf (if (yesEnds && noEnds) = true then [] else [.label l]) = [] := by
      split <;> rfl
    simp only [Code.branchLines, instrsOf_append, instrsOf_plain, instrsOf_instr, instrsOf_label, join, append_nil]
    have below := le.trans cond.le
    refine (cond.addressed le).append (.other (ne_extsw rfl) (.append ?_ ?_))
    · exact (ihYes below).before (ne_extsw_rejoin yesEnds)
    · exact (ihNo (below.trans yes.le)).before (ne_extsw_rejoin noEnds)
  | count _ start stop _ ih =>
    simp only [Code.countLines, instrsOf_append, instrsOf_plain, instrsOf_label, instrsOf_nil, append_nil]
    have below := (le.trans start.le).trans stop.le
    have bounds := (start.addressed le).append (stop.addressed (le.trans start.le))
    refine (bounds.before ?_).append (.other (ne_extsw rfl) (.other ?_ (.other (ne_extsw rfl) ?_)))
    · exact forall_mem_cons.mpr ⟨ne_extsw rfl, forall_mem_singleton.mpr (ne_extsw rfl)⟩
    · dsimp only [Code.compute]
      split <;> decide
    · exact (ih (Nat.le_add_right_of_le below)).before ne_extsw_again
  | loop cond _ ih =>
    simp only [Code.loopLines, instrsOf_append, instrsOf_plain, instrsOf_instr, instrsOf_label, instrsOf_nil,
      append_nil]
    refine .other (ne_extsw rfl) (.append ?_ ?_)
    · exact (cond.addressed le).before (forall_mem_singleton.mpr (ne_extsw rfl))
    · exact (ih (le.trans cond.le)).before (ne_extsw_rejoin _)
  | block _ ih => exact ih le
  | last first ih =>
    have ends : Static.leaves _ = true := first.ends_eq.symm
    rw [Piece.subscripts, subscriptsUntil, if_pos ends, append_nil]
    exact ih le
  | cons first _ ihFirst ihRest =>
    have stays : Static.leaves _ = false := first.ends_eq.symm
    rw [Piece.subscripts, subscriptsUntil, if_neg (by rw [stays]; decide), instrsOf_append]
    exact (ihFirst le).append (ihRest (le.trans first.le))

end Bodies

/-! ## Programs -/

/-- The bodies of a program in the order of their functions: what names stand for in each, and its
number of slots. -/
def bodies (o : Outline) : List (Layout × Nat × Tree) :=
  (definitions [] o.headers).map (fun d =>
    (layout o d.seen d.header.slots, d.header.slots.length, d.body)) ++ [(layout o o.headers [], 0, o.main)]

section Programs

variable {o : Outline} {strings : List Ir.StringLit} {f : Ir.Func}

theorem BodyCode.addressed {enter : List Instr} {leave : Nat → List Instr}
 (code : BodyCode L strings n enter leave body f.blocks)
    (front : ∀ i ∈ enter, i.op ≠ .extsw) (behind : ∀ m, ∀ i ∈ leave m, i.op ≠ .extsw) :
    Addressed (Site L n) (subscripts body) f.instrs := by
  obtain ⟨r, ls, ends, n', k', lowers, listed⟩ := code
  rw [instrs_eq_instrsOf, Ir.Func.lines, listed, instrsOf_framed]
  refine (Addressed.others front).append ((lowers.addressed (Nat.le_refl n)).before ?_)
  exact forall_mem_append.mpr ⟨ne_extsw_rejoin ends, behind n'⟩

theorem RoutineCode.addressed {d : Definition} (code : RoutineCode o strings d f) :
    Addressed (Site (layout o d.seen d.header.slots) d.header.slots.length) (subscripts d.body) f.instrs := by
  refine code.blocks.addressed (fun i member => ?_) fun m i member => ?_
  · cases entered_of_mem member <;> exact ne_extsw rfl
  · unfold Code.leave at member
    split at member
    · cases mem_singleton.mp member
      exact ne_extsw rfl
    · rcases mem_cons.mp member with rfl | last
      · exact ne_extsw rfl
      · cases mem_singleton.mp last
        exact ne_extsw rfl

theorem MainCode.addressed (code : MainCode o strings f) :
    Addressed (Site (layout o o.headers []) 0) (subscripts o.main) f.instrs :=
  code.blocks.addressed (forall_mem_nil _) fun _ => forall_mem_singleton.mpr (ne_extsw rfl)

/-- Every function has a site for each subscript of its body, in order, and no other instruction that
widens a word. -/
theorem Compiled.addressed (compiled : Compiled o p) :
    Forall₂ (fun b f => Addressed (Site b.1 b.2.1) (subscripts b.2.2) f.instrs) (bodies o) p.funcs := by
  obtain ⟨fs, main, funcs, routines, mainCode⟩ := compiled.funcs
  rw [funcs, bodies]
  refine rel_append ?_ (.cons mainCode.addressed .nil)
  rw [forall₂_map_left_iff]
  exact routines.imp fun d f code => code.addressed

end Programs

end MiniPascal.Lower
