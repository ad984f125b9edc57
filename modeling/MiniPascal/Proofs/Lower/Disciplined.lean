import MiniPascal.Proofs.Ir.Discipline
import MiniPascal.Proofs.Lower.Code

/-!
# The code of a body keeps to the discipline

Temporaries are numbered as they are made, the slots of variables first. A temporary other than a slot
is read in the block in which it is assigned, with one exception: the last value of a counting loop is
assigned in front of the loop and read in its condition. So the only labels that need more than the
slots are those of the conditions of counting loops.
-/

open List

namespace MiniPascal.Lower

open Ir (Value Instr Ty Line plain plain_append Discipline)

/-- A discipline for code in a layout, whose first `slots` temporaries are always available. -/
structure Suits (D : Discipline) (L : Layout) (slots : Nat) : Prop where
  held : ∀ x, D.Operand (· < slots) (L.address x)
  unnamed : ∀ n, slots ≤ n → D.name n = ""
  printf : D.callee "printf"
  scanf : D.callee "scanf"
  routine : ∀ f, L.defined f → D.callee ("pas_" ++ f)
  apart : ∀ n, D.temp n ∉ D.params

/-! ## Straight-line code -/

/-- Straight-line code keeps to the discipline where some temporaries are available, and what is
available then satisfies a condition. -/
def Passes (D : Discipline) (A : Nat → Prop) (n : Nat) (is : List Instr) (m : Nat) (Q : (Nat → Prop) → Prop) : Prop :=
  ∃ B, (∀ t, A t → B t) ∧ D.Runs ⟨n, some A⟩ (plain is) ⟨m, some B⟩ ∧ Q B

namespace Passes

variable {D : Discipline} {A : Nat → Prop} {n m k : Nat} {is js : List Instr}
  {Q R : (Nat → Prop) → Prop}

theorem nil (h : Q A) : Passes D A n [] n Q := ⟨A, fun _ avail => avail, .nil, h⟩

theorem append (first : Passes D A n is m Q)
    (second : ∀ B, (∀ t, A t → B t) → Q B → Passes D B m js k R) : Passes D A n (is ++ js) k R := by
  obtain ⟨B, sub, runs, holds⟩ := first
  obtain ⟨C, sub', runs', holds'⟩ := second B sub holds
  exact ⟨C, fun t avail => sub' t (sub t avail), by rw [plain_append]; exact runs.append runs', holds'⟩

variable {i : Instr}

theorem cons (first : Passes D A n [i] m Q) (second : ∀ B, (∀ t, A t → B t) → Q B → Passes D B m js k R) :
    Passes D A n (i :: js) k R :=
  first.append second

theorem effect (goes : D.Goes A i) (result : i.result = .missing) (h : Q A) :
    Passes D A n [i] n Q := ⟨A, fun _ avail => avail, .effect goes result .nil, h⟩

theorem define (goes : D.Goes A i) (result : i.result = .temp (D.temp n)) (h : Q fun t => A t ∨ t = n) :
    Passes D A n [i] (n + 1) Q :=
  ⟨_, fun _ => .inl, .define goes result .nil, h⟩

theorem le (h : Passes D A n is m Q) : n ≤ m := by
  obtain ⟨B, -, runs, -⟩ := h
  exact runs.next_le

theorem mono (h : Passes D A n is m Q) (imp : ∀ B, (∀ t, A t → B t) → Q B → R B) : Passes D A n is m R := by
  obtain ⟨B, sub, runs, holds⟩ := h
  exact ⟨B, sub, runs, imp B sub holds⟩

end Passes

/-- An operation that computes or moves values. -/
structure Simple (op : Ir.Op) : Prop where
  goes : op.isTerminator = false
  noCall : op ≠ .call
  noAlloc : op ≠ .alloc

theorem operation?_simple (h : operation? op = some operation) : Simple operation := by
  unfold operation? at h
  split at h <;> cases h <;> exact ⟨rfl, nofun, nofun⟩

theorem stepOp?_simple (h : stepOp? b = some op) : Simple op := by
  unfold stepOp? at h
  split at h <;> cases h <;> exact ⟨rfl, nofun, nofun⟩

theorem simple_step (down : Bool) : Simple (if down then Ir.Op.sub else .add) := by
  cases down <;> exact ⟨rfl, nofun, nofun⟩

section Straight

variable {D : Discipline} {L : Layout} {slots : Nat} (suits : Suits D L slots)

include suits

theorem Suits.temp (h : slots ≤ n) : Code.temp n = .temp (D.temp n) := by
  unfold Code.temp Discipline.temp
  rw [suits.unnamed n h]

theorem Suits.operand_temp (h : slots ≤ n) (avail : A n) : D.Operand A (Code.temp n) := by
  rw [suits.temp h]
  exact .inr ⟨n, rfl, avail⟩

theorem Suits.avail_of_operand (h : slots ≤ n) (operand : D.Operand A (Code.temp n)) : A n := by
  rw [suits.temp h] at operand
  rcases operand with param | ⟨m, same, avail⟩
  · exact absurd param (suits.apart n)
  · rw [Discipline.temp_inj same]
    exact avail

theorem Suits.operand_address (base : ∀ t < slots, A t) (x : String) :
    D.Operand A (L.address x) := (suits.held x).mono base

omit suits in
theorem goes_of_args {i : Instr} (simple : Simple i.op) (operands : ∀ v ∈ i.args, D.Operand A v) : D.Goes A i :=
  ⟨simple.goes, operands, fun isCall => absurd isCall simple.noCall, fun isAlloc => absurd isAlloc simple.noAlloc⟩

variable {A : Nat → Prop} {n : Nat} (taken : slots ≤ n)

include taken

/-- A new temporary is available right behind its instruction. -/
theorem Passes.fresh (goes : D.Goes A i) (result : i.result = Code.temp n) :
    Passes D A n [i] (n + 1) fun B => D.Operand B (Code.temp n) :=
  .define goes (by rw [result, suits.temp taken]) (suits.operand_temp taken (.inr rfl))

theorem passes_load (operand : D.Operand A address) :
    Passes D A n [Code.load n address] (n + 1) fun B => D.Operand B (Code.temp n) :=
  .fresh suits taken (goes_of_args ⟨rfl, nofun, nofun⟩ (by simpa [Code.load] using operand)) rfl

theorem passes_compute (simple : Simple op)
    (left : D.Operand A x) (right : D.Operand A y) :
    Passes D A n [Code.compute op type n x y] (n + 1) fun B => D.Operand B (Code.temp n) :=
  .fresh suits taken (goes_of_args simple (by simp [Code.compute, left, right])) rfl

theorem passes_extend (operand : D.Operand A x) :
    Passes D A n [Code.extend n x] (n + 1) fun B => D.Operand B (Code.temp n) :=
  .fresh suits taken (goes_of_args ⟨rfl, nofun, nofun⟩ (by simpa [Code.extend] using operand)) rfl

theorem passes_addressing {lower : Int64} (hbase : D.Operand A base) (hi : D.Operand A i) :
    Passes D A n (Code.addressing n base i lower) (n + 4) fun B => D.Operand B (Code.temp (n + 3)) := by
  refine (passes_compute suits taken (by exact ⟨rfl, nofun, nofun⟩) hi .const).cons fun B subB offset => ?_
  refine (passes_extend suits (by omega) offset).cons fun C subC wide => ?_
  refine (passes_compute suits (by omega) (by exact ⟨rfl, nofun, nofun⟩) wide .const).cons fun E subE scaled => ?_
  exact passes_compute suits (by omega) (by exact ⟨rfl, nofun, nofun⟩) (((hbase.mono subB).mono subC).mono subE) scaled

omit taken in
theorem goes_call {vs : List (Value × Ty)} (defined : L.defined f)
    (operands : ∀ v ∈ vs, D.Operand A v.1) : D.Goes A (Code.call f result? vs) where
  op := rfl
  operands := by
    intro v member
    rcases mem_cons.mp member with rfl | inside
    · exact .global
    · obtain ⟨w, arg, rfl⟩ := mem_map.mp inside
      exact operands w arg
  callee _ := ⟨_, _, rfl, suits.routine f defined⟩
  alloc isAlloc := by cases isAlloc

end Straight

variable {L : Layout} {n m k k' : Nat} {is : List Instr} {t : Tree} {strings : List Ir.StringLit}
  {ts : List Tree}

theorem Emits.le (h : Emits L phrase n is m) : n ≤ m := by
  induction h with
  | number | constant | noArgs => exact Nat.le_refl _
  | var | bareCall => exact Nat.le_succ _
  | element _ _ ih | binary _ _ _ ihl ihr | call _ _ _ ih | wordArg _ _ _ ihw iha => omega
  | arrayArg _ _ _ _ _ iha => exact iha

theorem Aims.le (h : Aims L t address n is m) : n ≤ m := by
  cases h with
  | var => exact Nat.le_refl _
  | element _ index =>
    have := index.le
    omega

theorem Writes.le (h : Writes L strings ts n is m) : n ≤ m := by
  induction h with
  | nil => exact Nat.le_refl _
  | text _ _ _ ih => exact ih
  | word code _ _ ih => exact Nat.le_trans code.le ih

theorem Scans.le (h : Scans L strings ts n is m) : n ≤ m := by
  induction h with
  | nil => exact Nat.le_refl _
  | cons code _ _ ih => exact Nat.le_trans code.le ih

theorem Invokes.le (h : Invokes L strings f ts n is m) : n ≤ m := by
  cases h with
  | procedure _ _ args => exact args.le
  | function _ _ args => exact Nat.le_succ_of_le args.le
  | write _ values | writeln _ values => exact values.le
  | readln _ targets => exact targets.le
  | step _ _ target => exact Nat.le_add_right_of_le target.le
  | stepBy _ _ amount target => exact Nat.le_add_right_of_le (Nat.le_trans amount.le target.le)

theorem Straight.le (h : Straight L strings t n is m) : n ≤ m := by
  cases h with
  | value code | bareCall _ code | element code | call code => exact code.le
  | assign code target => exact Nat.le_trans code.le target.le
  | assignArray => exact Nat.le_refl _

theorem Lowers.le
 (h : Lowers L strings ret brk piece n k ls ends n' k') : n ≤ n' := by
  induction h with
  | straight code => exact code.le
  | absent | leave | exit | nil => exact Nat.le_refl _
  | branch cond _ _ ihyes ihno => exact Nat.le_trans cond.le (Nat.le_trans ihyes ihno)
  | count _ start stop _ ih =>
    have := start.le
    have := stop.le
    split <;> omega
  | loop cond _ ih => exact Nat.le_trans cond.le ih
  | block _ ih | last _ ih => exact ih
  | cons _ _ ihfirst ihrest => exact Nat.le_trans ihfirst ihrest

/-- The value of an expression is a number, or a temporary that its code assigns. -/
theorem Emits.value {v : Value} (h : Emits L (.word t v) n is m) :
    (∃ value, v = .const value) ∨ ∃ j, n ≤ j ∧ j < m ∧ v = Code.temp j := by
  cases h with
  | number | constant => exact .inl ⟨_, rfl⟩
  | var | bareCall => exact .inr ⟨n, Nat.le_refl n, Nat.lt_succ_self n, rfl⟩
  | element _ index =>
    have := index.le
    exact .inr ⟨_, by omega, by omega, rfl⟩
  | binary _ left right =>
    have := left.le
    have := right.le
    exact .inr ⟨_, by omega, by omega, rfl⟩
  | call _ _ args =>
    have := args.le
    exact .inr ⟨_, by omega, by omega, rfl⟩

/-- What straight-line code computed can be read. -/
def Phrase.Readable (D : Discipline) : Phrase → (Nat → Prop) → Prop
  | .word _ v, B => D.Operand B v
  | .args _ _ vs, B => ∀ v ∈ vs, D.Operand B v.1

/-- The slots are numbered, and available. -/
structure Stands (slots n : Nat) (A : Nat → Prop) : Prop where
  taken : slots ≤ n
  base : ∀ t < slots, A t

/-- Behind code, the slots are still there. -/
theorem Passes.after {A : Nat → Prop} {Q R : (Nat → Prop) → Prop}
    (first : Passes D A n is m Q) (here : Stands slots n A)
    (second : ∀ B, (∀ t, A t → B t) → Stands slots m B → Q B → Passes D B m js k R) :
    Passes D A n (is ++ js) k R :=
  first.append fun B sub => second B sub ⟨Nat.le_trans here.taken first.le, fun t low => sub t (here.base t low)⟩

section Emits

variable {D : Discipline} {L : Layout} {slots : Nat} (suits : Suits D L slots)

include suits

theorem Suits.at {A : Nat → Prop} {n : Nat} (here : Stands slots n A) (x : String) : D.Operand A (L.address x) :=
  suits.operand_address here.base x

theorem Emits.passes {n m : Nat} {is : List Instr} (h : Emits L phrase n is m)
    {A : Nat → Prop} (here : Stands slots n A) : Passes D A n is m (phrase.Readable D) := by
  induction h generalizing A with
  | number | constant => exact .nil trivial
  | var => exact passes_load suits here.taken (suits.at here _)
  | bareCall _ callable =>
    exact .fresh suits here.taken (goes_call suits callable.2.2 (by simp)) rfl
  | element _ _ ih =>
    rw [append_assoc]
    refine (ih here).after here fun B _ here i => ?_
    exact (passes_addressing suits here.taken (suits.at here _) i).after here fun C _ here address =>
      passes_load suits here.taken address
  | binary operation _ _ ihl ihr =>
    rw [append_assoc]
    exact (ihl here).after here fun B _ here x => (ihr here).after here fun C subC here y =>
      passes_compute suits here.taken (operation?_simple operation) (x.mono subC) y
  | call callable _ _ ih =>
    exact (ih here).after here fun B _ here operands =>
      .fresh suits here.taken (goes_call suits callable.2.2 operands) rfl
  | noArgs => exact .nil (by simp [Phrase.Readable])
  | wordArg _ _ _ ihw iha =>
    refine (ihw here).after here fun B _ here v => (iha here).mono fun C subC vs => ?_
    exact forall_mem_cons.mpr ⟨v.mono subC, vs⟩
  | arrayArg _ _ _ _ _ iha =>
    refine (iha here).mono fun B subB vs => ?_
    exact forall_mem_cons.mpr ⟨(suits.at here _).mono subB, vs⟩

variable {n m : Nat} {is : List Instr} {A : Nat → Prop} (here : Stands slots n A)

include here

theorem Aims.passes {t : Tree} (h : Aims L t a n is m) : Passes D A n is m fun B => D.Operand B a := by
  cases h with
  | var => exact .nil (suits.at here _)
  | element _ index =>
    exact (index.passes suits here).after here fun B _ here i =>
      passes_addressing suits here.taken (suits.at here _) i

variable {strings : List Ir.StringLit}

omit here in
theorem passes_print {format : Value} {value : Option (Value × Ty)}
    (literal : Literal strings text format) (operand : ∀ v ∈ value, D.Operand A v.1) :
    Passes D A n [Code.print format value] n fun _ => True := by
  obtain ⟨label, -, rfl⟩ := literal
  refine .effect ⟨rfl, ?_, fun _ => ⟨_, _, rfl, suits.printf⟩, nofun⟩ rfl trivial
  intro v member
  cases value with
  | none =>
    rcases (by simpa [Code.print] using member : v = _ ∨ v = _) with rfl | rfl <;> exact .global
  | some w =>
    rcases (by simpa [Code.print] using member : v = _ ∨ v = _ ∨ v = _) with rfl | rfl | rfl
    · exact .global
    · exact .global
    · exact operand w rfl

omit here in
theorem passes_scan {format : Value} (literal : Literal strings text format)
    (operand : D.Operand A a) : Passes D A n [Code.scan format a] n fun _ => True := by
  obtain ⟨label, -, rfl⟩ := literal
  refine .effect ⟨rfl, ?_, fun _ => ⟨_, _, rfl, suits.scanf⟩, nofun⟩ rfl trivial
  intro v member
  rcases (by simpa [Code.scan] using member : v = _ ∨ v = _ ∨ v = _) with rfl | rfl | rfl
  · exact .global
  · exact .global
  · exact operand

theorem Writes.passes {ts : List Tree} (h : Writes L strings ts n is m) : Passes D A n is m fun _ => True := by
  induction h generalizing A with
  | nil => exact .nil trivial
  | text value format _ ih =>
    obtain ⟨label, -, rfl⟩ := value
    refine (passes_print suits format ?_).after here fun B _ here _ => ih here
    rintro _ ⟨⟩
    exact .global
  | word word format _ ih =>
    refine (word.passes suits here).after here fun B _ here v => ?_
    refine (passes_print suits format ?_).after here fun C _ here _ => ih here
    rintro _ ⟨⟩
    exact v

theorem Scans.passes {ts : List Tree} (h : Scans L strings ts n is m) : Passes D A n is m fun _ => True := by
  induction h generalizing A with
  | nil => exact .nil trivial
  | cons target format _ ih =>
    exact (target.passes suits here).after here fun B _ here address =>
      (passes_scan suits format address).after here fun C _ here _ => ih here

theorem passes_bump (simple : Simple op)
    (haddress : D.Operand A address) (hamount : D.Operand A amount) :
    Passes D A n (Code.bump op n address amount) (n + 2) fun _ => True := by
  refine (passes_load suits here.taken haddress).after here fun B subB here old => ?_
  refine (passes_compute suits here.taken simple old (hamount.mono subB)).cons fun C subC new => ?_
  refine .effect (goes_of_args ⟨rfl, nofun, nofun⟩ ?_) rfl trivial
  simp [Code.store, new, (haddress.mono subB).mono subC]

theorem Invokes.passes (h : Invokes L strings f args n is m) :
    Passes D A n is m fun _ => True := by
  cases h with
  | procedure callable _ args =>
    exact (args.passes suits here).append fun B _ operands =>
      .effect (goes_call suits callable.2.2 operands) rfl trivial
  | function callable _ args =>
    exact (args.passes suits here).after here fun B _ here operands =>
      (Passes.fresh suits here.taken (goes_call suits callable.2.2 operands) rfl).mono fun _ _ _ => trivial
  | write _ writes => exact writes.passes suits here
  | writeln _ writes newline =>
    exact (writes.passes suits here).append fun B _ _ => passes_print suits newline (by simp)
  | readln _ scans => exact scans.passes suits here
  | step _ op target =>
    exact (target.passes suits here).after here fun B _ here address =>
      passes_bump suits here (stepOp?_simple op) address .const
  | stepBy _ op amount target =>
    rw [append_assoc]
    exact (amount.passes suits here).after here fun B _ here v =>
      (target.passes suits here).after here fun C subC here address =>
        passes_bump suits here (stepOp?_simple op) address (v.mono subC)

theorem Straight.passes {t : Tree} (h : Straight L strings t n is m) : Passes D A n is m fun _ => True := by
  cases h with
  | value word | element word => exact (word.passes suits here).mono fun _ _ _ => trivial
  | bareCall _ invokes | call invokes => exact invokes.passes suits here
  | assign value target =>
    rw [append_assoc]
    refine (value.passes suits here).after here fun B _ here v =>
      (target.passes suits here).append fun C subC address => ?_
    refine .effect (goes_of_args ⟨rfl, nofun, nofun⟩ ?_) rfl trivial
    simp [Code.store, v.mono subC, address]
  | assignArray =>
    refine .effect (goes_of_args ⟨rfl, nofun, nofun⟩ ?_) rfl trivial
    simp [Code.copy, suits.at here, Discipline.Operand.const]

/-- The code in front of a counting loop. -/
theorem passes_front (hstart : Emits L (.word start v) n is n₁) (hstop : Emits L (.word stop w) n₁ js n₂) :
    Passes D A n (is ++ js ++ [Code.store (L.address x) v]) n₂ fun B => D.Operand B w := by
  rw [append_assoc]
  refine (hstart.passes suits here).after here fun B subB here first =>
    (hstop.passes suits here).after here fun C subC here last => ?_
  refine .effect (goes_of_args ⟨rfl, nofun, nofun⟩ ?_) rfl last
  simpa [Code.store] using ⟨first.mono subC, suits.at here x⟩

/-- The test of a counting loop. -/
theorem passes_test (down : Bool) (x : String) (last : D.Operand A w) : Passes D A n [Code.load n (L.address x),
    Code.compute (if down then .cge else .cle) .word (n + 1) (Code.temp n) w] (n + 2)
    fun B => D.Operand B (Code.temp (n + 1)) := by
  have simple : Simple (if down then Ir.Op.cge else .cle) := by
    cases down <;> exact ⟨rfl, nofun, nofun⟩
  exact (passes_load suits here.taken (suits.at here x)).after here fun B subB here old =>
    passes_compute suits here.taken simple old (last.mono subB)

end Emits

/-! ## Statements -/

/-- A label has a number in a range. -/
def Own (k k' : Nat) (l : String) : Prop := ∃ hint j, l = numbered hint j ∧ k ≤ j ∧ j < k'

theorem own_numbered : Own k k' (numbered hint j) ↔ k ≤ j ∧ j < k' := by
  constructor
  · rintro ⟨hint', j', same, bounds⟩
    rw [(numbered_inj same).2]
    exact bounds
  · exact fun bounds => ⟨hint, j, rfl, bounds⟩

theorem Own.mono (h : Own a b l) (low : k ≤ a) (high : b ≤ k') : Own k k' l := by
  obtain ⟨hint, j, rfl, bounds⟩ := h
  exact ⟨hint, j, rfl, by omega⟩

theorem Own.disjoint (h : Own a b l) (h' : Own c d l) (apart : b ≤ c) : False := by
  obtain ⟨hint, j, rfl, bounds⟩ := h
  have bounds' := own_numbered.mp h'
  omega

/-- What the code of a statement needs from its surroundings. The temporaries in `S` are available all
through the statement; `X` says what its own labels need besides. -/
structure Surrounds (D : Discipline) (L : Layout) (slots : Nat) (S : Nat → Prop) (ret : String)
    (brk : Option String) (n k k' : Nat) (X : String → Nat → Prop) : Prop where
  suits : Suits D L slots
  taken : slots ≤ n
  slots : ∀ t < slots, S t
  below : ∀ t, S t → t < n
  own : ∀ l, Own k k' l → ∀ t, D.needs l t ↔ S t ∨ X l t
  ret : ∀ t, D.needs ret t → S t
  brk : ∀ b, brk = some b → ∀ t, D.needs b t → S t

namespace Surrounds

variable {D : Discipline} {L : Layout} {slots : Nat} {S : Nat → Prop} {ret : String} {brk : Option String}
  {n k k' : Nat} {X : String → Nat → Prop} (h : Surrounds D L slots S ret brk n k k' X)

include h

theorem stands {A : Nat → Prop} (sub : ∀ t, S t → A t) : Stands slots n A :=
  ⟨h.taken, fun t low => sub t (h.slots t low)⟩

theorem narrow {m : Nat} {Y : String → Nat → Prop} (further : n ≤ m) (low : k ≤ a) (high : b ≤ k')
    (same : ∀ l, Own a b l → ∀ t, X l t ↔ Y l t) : Surrounds D L slots S ret brk m a b Y :=
  { h with
    taken := Nat.le_trans h.taken further
    below := fun t inS => Nat.lt_of_lt_of_le (h.below t inS) further
    own := fun l own t => by rw [h.own l (own.mono low high) t, same l own t] }

/-- Inside a loop with a label behind it. -/
theorem inside (needs : ∀ t, D.needs b t → S t) : Surrounds D L slots S ret (some b) n k k' X :=
  { h with brk := fun _ same t needed => needs t (Option.some.inj same ▸ needed) }

/-- A label in front of those that need something besides. -/
theorem needs (hint : String) (own : ∀ l t, X l t → Own a k' l) (low : k ≤ j) (high : j < a) (le : a ≤ k')
    (t : Nat) : D.needs (numbered hint j) t ↔ S t := by
  rw [h.own _ (own_numbered.mpr ⟨low, Nat.lt_of_lt_of_le high le⟩) t]
  exact or_iff_left fun needed => Nat.not_le_of_lt high (own_numbered.mp (own _ t needed)).1

end Surrounds

/-- The code of a statement keeps to every discipline that surrounds it. Only its own labels need something
besides. -/
structure Guarded (L : Layout) (ret : String) (brk : Option String) (n k : Nat) (ls : List Line) (ends : Bool)
    (n' k' : Nat) (X : String → Nat → Prop) : Prop where
  le : k ≤ k'
  own : ∀ l t, X l t → Own k k' l
  runs : ∀ D slots S, Surrounds D L slots S ret brk n k k' X → ∀ A, (∀ t, S t → A t) → (∀ t, A t → t < n) →
    ∃ B, (∀ t, S t → B t) ∧ D.Runs ⟨n, some A⟩ ls ⟨n', if ends then none else some B⟩

theorem Guarded.owns (h : Guarded L ret brk n k ls ends n' k' X) (low : m ≤ k) (l : String) (t : Nat)
    (needed : X l t) : Own m k' l := (h.own l t needed).mono low (Nat.le_refl _)

section Jumps

variable {D : Discipline} {A : Nat → Prop} {l : String}

theorem leaves_jump (needs : ∀ t, D.needs l t → A t) : D.Leaves A (Code.jump l) where
  op := rfl
  result := rfl
  operands v member := .inr ⟨l, mem_singleton.mp member, needs⟩
  returns isRet := by cases isRet

theorem leaves_branch (operand : D.Operand A v)
    (hyes : ∀ t, D.needs yes t → A t) (hno : ∀ t, D.needs no t → A t) :
    D.Leaves A (Code.branch v yes no) where
  op := rfl
  result := rfl
  operands w member := by
    rcases (by simpa [Code.branch] using member : w = _ ∨ w = _ ∨ w = _) with rfl | rfl | rfl
    · exact .inl operand
    · exact .inr ⟨yes, rfl, hyes⟩
    · exact .inr ⟨no, rfl, hno⟩
  returns isRet := by cases isRet

theorem runs_jump {n : Nat} (needs : ∀ t, D.needs l t → A t) :
    D.Runs ⟨n, some A⟩ [.instr (Code.jump l)] ⟨n, none⟩ := .leave (leaves_jump needs) .nil

theorem runs_rejoin {n : Nat} (needs : ∀ t, D.needs l t → A t) :
    D.Runs ⟨n, if ends then none else some A⟩ (rejoin ends l) ⟨n, none⟩ := by
  cases ends with
  | true => exact .nil
  | false => exact runs_jump needs

end Jumps

section Statements

variable {L : Layout} {strings : List Ir.StringLit} {ret : String} {brk : Option String}
  {n' slots n₁ n₂ k₁ : Nat} {D : Discipline} {ls : List Line} {ends : Bool}
  {X : String → Nat → Prop} {v : Value}

/-- Code without labels of its own. -/
theorem guarded_plain (runs : ∀ D slots S, Surrounds D L slots S ret brk n k k (fun _ _ => False) →
      ∀ A, (∀ t, S t → A t) → ∃ B, (∀ t, S t → B t) ∧ D.Runs ⟨n, some A⟩ ls ⟨n', if ends then none else some B⟩) :
    Guarded L ret brk n k ls ends n' k fun _ _ => False :=
  ⟨Nat.le_refl _, nofun, fun D slots S sur A sub _ => runs D slots S sur A sub⟩

/-- A block that opens with the lines of a statement and then goes on elsewhere. -/
theorem Guarded.arm {S : Nat → Prop} {k' : Nat} (h : Guarded L ret brk n k ls ends n' k' X)
    (sur : Surrounds D L slots S ret brk n k k' X) (opens : ∀ t, D.needs l t ↔ S t)
    (joins : ∀ t, D.needs target t → S t) : D.Runs ⟨n, none⟩ (.label l :: (ls ++ rejoin ends target)) ⟨n', none⟩ := by
  have below (t : Nat) (needed : D.needs l t) : t < n := sur.below t ((opens t).mp needed)
  obtain ⟨B, subB, runs⟩ := h.runs D slots S sur (D.needs l) (fun t => (opens t).mpr) below
  exact .label below (runs.append (runs_rejoin fun t needed => subB t (joins t needed)))

theorem guarded_branch {cond : Tree} {X₁ X₂ : String → Nat → Prop} (hcond : Emits L (.word cond v) n is n₁)
    (yes : Guarded L ret brk n₁ (k + 3) ls yesEnds n₂ k₁ X₁) (no : Guarded L ret brk n₂ k₁ ms noEnds n₃ k₂ X₂) :
    Guarded L ret brk n k (Code.branchLines k is v ls yesEnds ms noEnds) (yesEnds && noEnds) n₃ k₂
      fun l t => X₁ l t ∨ X₂ l t := by
  have le₁ := yes.le
  have le₂ := no.le
  have own (l : String) (t : Nat) (needed : X₁ l t ∨ X₂ l t) : Own (k + 3) k₂ l :=
    needed.elim (fun needed => (yes.own l t needed).mono (Nat.le_refl _) le₂) (no.owns le₁ l t)
  refine ⟨by omega, fun l t needed => (own l t needed).mono (by omega) (Nat.le_refl _), ?_⟩
  intro D slots S sur A sub below
  have hyes := sur.needs "if_then" own (Nat.le_refl k) (by omega) (by omega)
  have hno := sur.needs "if_else" own (Nat.le_add_right k 1) (by omega) (by omega)
  have hjoin := sur.needs "if_join" own (Nat.le_add_right k 2) (by omega) (by omega)
  obtain ⟨A₁, sub₁, runs₁, operand⟩ := hcond.passes sur.suits (sur.stands sub)
  have le_n₁ : n ≤ n₁ := runs₁.next_le
  have goes (t : Nat) (inS : S t) : A₁ t := sub₁ t (sub t inS)
  have first := yes.arm (sur.narrow le_n₁ (by omega) le₂ fun l own t => or_iff_left fun needed =>
    own.disjoint (no.own l t needed) (Nat.le_refl _)) hyes fun t => (hjoin t).mp
  have le_n₂ : n₁ ≤ n₂ := first.next_le
  have second := no.arm (sur.narrow (Nat.le_trans le_n₁ le_n₂) (by omega) (Nat.le_refl _) fun l own t =>
    or_iff_right fun needed => (yes.own l t needed).disjoint own (Nat.le_refl _)) hno fun t => (hjoin t).mp
  have le_n₃ : n₂ ≤ n₃ := second.next_le
  have join : D.Runs ⟨n₃, none⟩ (if yesEnds && noEnds then [] else [.label (ifJoin k)])
      ⟨n₃, if yesEnds && noEnds then none else some (D.needs (ifJoin k))⟩ := by
    cases yesEnds && noEnds with
    | true => exact .nil
    | false =>
      refine .label (fun t needed => ?_) .nil
      have := sur.below t ((hjoin t).mp needed)
      omega
  refine ⟨_, fun t => (hjoin t).mpr, ?_⟩
  have branches : D.Leaves A₁ (Code.branch v (ifThen k) (ifElse k)) :=
    leaves_branch operand (fun t needed => goes t ((hyes t).mp needed))
      fun t needed => goes t ((hno t).mp needed)
  have all := runs₁.append (.leave branches (first.append (second.append join)))
  simpa [Code.branchLines] using all

/-- The code of any loop: `S` is available from the condition to the label behind the loop. -/
theorem runs_round {S A : Nat → Prop} {c : String}
    (needs : ∀ l ∈ [c, b, a], ∀ t, D.needs l t ↔ S t) (below : ∀ t, S t → t < n₁)
    (enters : Passes D A n front n₁ fun B => ∀ t, S t → B t)
    (tests : Passes D (D.needs c) n₁ test n₂ fun B => D.Operand B v)
    (sur : Surrounds D L slots S ret (some a) n₂ k k₁ X) (body : Guarded L ret (some a) n₂ k ls ends n₃ k₁ X)
    (goesBack : ∀ B, (∀ t, S t → B t) → n₂ ≤ n₃ → D.Runs ⟨n₃, if ends then none else some B⟩ back ⟨n₄, none⟩) :
    D.Runs ⟨n, some A⟩ (Code.roundLines c b a front test v ls back) ⟨n₄, some (D.needs a)⟩ := by
  have hc := needs c (by simp)
  have hb := needs b (by simp)
  have ha := needs a (by simp)
  obtain ⟨B, -, runsFront, inFront⟩ := enters
  obtain ⟨C, sub, runsTest, operand⟩ := tests
  obtain ⟨E, subE, runsBody⟩ := body.runs D slots S sur (D.needs b) (fun t => (hb t).mpr)
    fun t needed => sur.below t ((hb t).mp needed)
  have le₂ : n₁ ≤ n₂ := runsTest.next_le
  have le₃ : n₂ ≤ n₃ := runsBody.next_le
  have again := goesBack E subE le₃
  have le₄ : n₃ ≤ n₄ := again.next_le
  have branches : D.Leaves C (Code.branch v b a) := leaves_branch operand
    (fun t needed => sub t ((hc t).mpr ((hb t).mp needed))) fun t needed => sub t ((hc t).mpr ((ha t).mp needed))
  have behind : D.Runs ⟨n₄, none⟩ [.label a] ⟨n₄, some (D.needs a)⟩ :=
    .label (fun t needed => Nat.lt_of_lt_of_le (below t ((ha t).mp needed)) (by omega)) .nil
  have inner : D.Runs ⟨n₂, none⟩ (.label b :: (ls ++ back ++ [.label a])) ⟨n₄, some (D.needs a)⟩ :=
    .label (fun t needed => sur.below t ((hb t).mp needed)) ((runsBody.append again).append behind)
  exact runsFront.append (.leave (leaves_jump fun t needed => inFront t ((hc t).mp needed))
    (.label (fun t needed => below t ((hc t).mp needed)) (runsTest.append (.leave branches inner))))

theorem guarded_loop {cond : Tree} (hcond : Emits L (.word cond v) n is n₁)
    (body : Guarded L ret (some (whileAfter k)) n₁ (k + 3) ls ends n₂ k₁ X) :
    Guarded L ret brk n k (Code.loopLines k is v ls ends) false n₂ k₁ X := by
  have le := body.le
  refine ⟨by omega, body.owns (by omega), fun D slots S sur A sub _ => ?_⟩
  have hcond' := sur.needs "while_cond" body.own (Nat.le_refl k) (by omega) le
  have hbody := sur.needs "while_body" body.own (Nat.le_add_right k 1) (by omega) le
  have hafter := sur.needs "while_after" body.own (Nat.le_add_right k 2) (by omega) le
  refine ⟨_, fun t => (hafter t).mpr, Code.loopLines_eq ▸ runs_round ?_ sur.below (.nil sub)
    (hcond.passes sur.suits (sur.stands fun t => (hcond' t).mpr))
    ((sur.narrow hcond.le (by omega) (Nat.le_refl _) fun l _ t => Iff.rfl).inside fun t => (hafter t).mp) body
    fun B subB _ => runs_rejoin fun t needed => subB t ((hcond' t).mp needed)⟩
  simpa using ⟨hcond', hbody, hafter⟩

/-- The end of the body of a counting loop. -/
theorem runs_again {A : Nat → Prop} (suits : Suits D L slots) (here : Stands slots n A) (x : String)
    (down ends : Bool) {cond : String} (needs : ∀ t, D.needs cond t → A t) :
    D.Runs ⟨n, if ends then none else some A⟩ (Code.again down ends n (L.address x) cond)
      ⟨if ends then n else n + 2, none⟩ := by
  cases ends with
  | true => exact .nil
  | false =>
    obtain ⟨B, sub, runs, -⟩ := passes_bump suits here (simple_step down) (suits.at here x)
      (Discipline.Operand.const : D.Operand A (.const 1))
    simpa [Code.again] using runs.append (runs_jump fun t needed => sub t (needs t needed))

theorem guarded_count (hstart : Emits L (.word start v) n is n₁) (hstop : Emits L (.word stop w) n₁ js n₂)
    (body : Guarded L ret (some (forAfter k)) (n₂ + 2) (k + 3) ls ends n₃ k₁ X) :
    Guarded L ret brk n k (Code.countLines k n₂ n₃ (is ++ js) (L.address x) v w down ls ends) false
      (if ends then n₃ else n₃ + 2) k₁ fun l t => (Own k k₁ l ∧ w = Code.temp t) ∨ X l t := by
  have le := body.le
  refine ⟨by omega, fun l t => Or.rec And.left (body.owns (by omega) l t), ?_⟩
  intro D slots S sur A sub below
  have suits := sur.suits
  -- the last value stays available all through the loop
  have label (hint : String) (j : Nat) (low : k ≤ j) (high : j < k + 3) (t : Nat) :
      D.needs (numbered hint j) t ↔ S t ∨ w = Code.temp t := by
    have mine : Own k k₁ (numbered hint j) := own_numbered.mpr (by omega)
    have others : ¬ X (numbered hint j) t := fun needed => by
      have := own_numbered.mp (body.own _ t needed)
      omega
    rw [sur.own _ mine t]
    simp only [mine, true_and, others, or_false]
  have hcond := label "for_cond" k (by omega) (by omega)
  have hafter := label "for_after" (k + 2) (by omega) (by omega)
  have last := hstop.value
  have le_n₁ := hstart.le
  have le_n₂ := hstop.le
  have lower := sur.taken
  have temp {t : Nat} (same : w = Code.temp t) : n₁ ≤ t ∧ t < n₂ := by
    subst same
    rcases last with ⟨_, ⟨⟩⟩ | ⟨j, low, high, same⟩
    have : (t : Int) = j := congrArg Ir.Temp.id (Value.temp.inj same)
    omega
  have inner (t : Nat) (inside : S t ∨ w = Code.temp t) : t < n₂ := by
    rcases inside with inS | same
    · have := sur.below t inS
      omega
    · exact (temp same).2
  have enters : Passes D A n (is ++ js ++ [Code.store (L.address x) v]) n₂
      fun B => ∀ t, S t ∨ w = Code.temp t → B t := by
    refine (passes_front suits (sur.stands sub) hstart hstop).mono fun B subB available => ?_
    rintro t (inS | same)
    · exact subB t (sub t inS)
    · have := temp same
      exact suits.avail_of_operand (by omega) (same ▸ available)
  have operand : D.Operand (D.needs (forCond k)) w := by
    rcases last with ⟨_, rfl⟩ | ⟨j, low, -, rfl⟩
    · exact .const
    · exact suits.operand_temp (by omega) ((hcond j).mpr (.inr rfl))
  have here : Stands slots n₂ (D.needs (forCond k)) :=
    ⟨by omega, fun t low => (hcond t).mpr (.inl (sur.slots t low))⟩
  have sur' : Surrounds D L slots (fun t => S t ∨ w = Code.temp t) ret
      (some (forAfter k)) (n₂ + 2) (k + 3) k₁ X :=
    { suits := suits
      taken := by omega
      slots := fun t low => .inl (sur.slots t low)
      below := fun t inside => Nat.lt_add_right 2 (inner t inside)
      own := fun l mine t => by
        have wide : Own k k₁ l := mine.mono (by omega) (Nat.le_refl _)
        rw [sur.own l wide t]
        simp only [wide, true_and, or_assoc]
      ret := fun t needed => .inl (sur.ret t needed)
      brk := by
        rintro _ ⟨⟩ t needed
        exact (hafter t).mp needed }
  refine ⟨_, fun t inS => (hafter t).mpr (.inl inS), Code.countLines_eq ▸ runs_round ?_ inner enters
    (passes_test suits here down x operand) sur' body fun B subB further => runs_again suits ⟨by omega, fun t low => subB t (sur'.slots t low)⟩ x down ends
      fun t needed => subB t ((hcond t).mp needed)⟩
  simpa using ⟨hcond, label "for_body" (k + 1) (by omega) (by omega), hafter⟩

theorem guarded_cons {X₁ X₂ : String → Nat → Prop} (first : Guarded L ret brk n k ls false n₁ k₁ X₁)
    (rest : Guarded L ret brk n₁ k₁ ms ends n₂ k₂ X₂) :
    Guarded L ret brk n k (ls ++ ms) ends n₂ k₂ fun l t => X₁ l t ∨ X₂ l t := by
  refine ⟨Nat.le_trans first.le rest.le, ?_, fun D slots S sur A sub below => ?_⟩
  · rintro l t (needed | needed)
    · exact (first.own l t needed).mono (Nat.le_refl _) rest.le
    · exact rest.owns first.le l t needed
  · obtain ⟨B, subB, runs⟩ := first.runs D slots S (sur.narrow (Nat.le_refl _) (Nat.le_refl _) rest.le fun l mine t =>
      or_iff_left fun needed => mine.disjoint (rest.own l t needed) (Nat.le_refl _)) A sub below
    have taken : Ir.Cursor.Valid ⟨n₁, some B⟩ := runs.valid (by rintro _ ⟨⟩; exact below)
    obtain ⟨C, subC, runs'⟩ := rest.runs D slots S (sur.narrow runs.next_le first.le (Nat.le_refl _) fun l mine t =>
      or_iff_right fun needed => (first.own l t needed).disjoint mine (Nat.le_refl _)) B subB (taken B rfl)
    exact ⟨C, subC, runs.append runs'⟩

/-- The code of every statement is guarded. -/
theorem Lowers.guarded {k' : Nat} (h : Lowers L strings ret brk piece n k ls ends n' k') :
    ∃ X, Guarded L ret brk n k ls ends n' k' X := by
  induction h with
  | straight straight =>
    refine ⟨_, guarded_plain fun D slots S sur A sub => ?_⟩
    obtain ⟨B, subB, runs, -⟩ := straight.passes sur.suits (sur.stands sub)
    exact ⟨B, fun t inS => subB t (sub t inS), runs⟩
  | absent | nil => exact ⟨_, guarded_plain fun _ _ _ _ A sub => ⟨A, sub, .nil⟩⟩
  | leave =>
    exact ⟨_, guarded_plain fun D slots S sur A sub =>
      ⟨S, fun _ inS => inS, runs_jump fun t needed => sub t (sur.brk _ rfl t needed)⟩⟩
  | exit =>
    exact ⟨_, guarded_plain fun D slots S sur A sub =>
      ⟨S, fun _ inS => inS, runs_jump fun t needed => sub t (sur.ret t needed)⟩⟩
  | branch cond _ _ ihyes ihno =>
    obtain ⟨X₁, yes⟩ := ihyes
    obtain ⟨X₂, no⟩ := ihno
    exact ⟨_, guarded_branch cond yes no⟩
  | count _ start stop _ ih =>
    obtain ⟨X, body⟩ := ih
    exact ⟨_, guarded_count start stop body⟩
  | loop cond _ ih =>
    obtain ⟨X, body⟩ := ih
    exact ⟨X, guarded_loop cond body⟩
  | block _ ih | last _ ih => exact ih
  | cons _ _ ihfirst ihrest =>
    obtain ⟨X₁, first⟩ := ihfirst
    obtain ⟨X₂, rest⟩ := ihrest
    exact ⟨_, guarded_cons first rest⟩

end Statements

end MiniPascal.Lower
