import MiniPascal.Proofs.Lower.Function

/-!
# The instructions of a program

Which instructions the code of a correct program is made of, and what their operands are: `Issued`
is for the code of bodies, `Entered` for the code in front of them. The invariants of whole programs
are read off these two, with one case for each kind of instruction.

Temporaries carry no type. `Has t type` says that `t` is assigned by an instruction of that type;
within a function it is `Func.Assigns`.
-/

open List

namespace MiniPascal.Ir

/-- An instruction of a function assigns a temporary a value of a type. -/
def Func.Assigns (f : Func) (t : Temp) (type : Ty) :
    Prop := ∃ i ∈ f.instrs, i.result = .temp t ∧ i.type = type

end MiniPascal.Ir

namespace MiniPascal.Lower

open Ir (Value Instr Ty Line plain)
open Static (Signature Header Outline)

/-! ## Operands -/

section Operands

variable (L : Layout) (strings : List Ir.StringLit) (Has : Ir.Temp → Ty → Prop)

/-- A value is a word: a constant, or assigned as one. -/
inductive IsWord : Value → Prop
  | const : IsWord (.const c)
  | temp : Has t .word → IsWord (.temp t)

/-- A value is the address of an integer: that of a variable, or one that was computed. -/
inductive IsCell : Value → Prop
  | var : L.Holds x .integer → IsCell (L.address x)
  | element : Has t .address → IsCell (.temp t)

/-- A value is passed for a parameter. -/
inductive Passed : VarType → Value × Ty → Prop
  | word : param.isArray = false → IsWord Has v → Passed param (v, .word)
  | array :
    param.isArray = true → L.Holds x type → type.isArray = true → type.size = param.size →
    Passed param (L.address x, .address)

/-- A value is printed. -/
inductive Printed : Value × Ty → Prop
  | word : IsWord Has v → Printed (v, .word)
  | text : Literal strings text v → Printed (v, .address)

/-! ## Bodies -/

/-- An instruction of a body. -/
inductive Issued : Instr → Prop
  | load : IsCell L Has a → Issued (Code.load n a)
  | store : IsCell L Has a → IsWord Has v → Issued (Code.store a v)
  | copy :
    L.Holds x type → type.isArray = true → L.Holds y type' → type'.isArray = true →
    type'.size = type.size → Issued (Code.copy (L.address y) (L.address x) type.size)
  | compute :
    operation? kind = some op → IsWord Has x → IsWord Has y → Issued (Code.compute op .word n x y)
  | extend : IsWord Has x → Issued (Code.extend n x)
  | scale : Has t .long → Issued (Code.compute .mul .long n (.temp t) (.const 4))
  | shift :
    L.Holds a type → Has t .long → Issued (Code.compute .add .address n (L.address a) (.temp t))
  | call :
    L.Callable f sig → (result?.isSome = true ↔ sig.result ≠ .void) →
    Forall₂ (Passed L Has) sig.params vs → Issued (Code.call f result? vs)
  | print {format : Value} :
    Literal strings text format → (∀ v ∈ value, Printed strings Has v) → Issued (Code.print format value)
  | scan {format : Value} :
    Literal strings text format → IsCell L Has a → Issued (Code.scan format a)
  | jump : Issued (Code.jump l)
  | branch : IsWord Has v → Issued (Code.branch v yes no)

/-- What is assigned by instructions has their types. -/
def Grants (is : List Instr) : Prop := ∀ i ∈ is, ∀ t, i.result = .temp t → Has t i.type

/-- What straight-line code computes is a word, or is passed for parameters. -/
def Phrase.Fits : Phrase → Prop
  | .word _ v => IsWord Has v
  | .args params _ vs => Forall₂ (Passed L Has) params vs

end Operands

section Bodies

variable {L : Layout} {strings : List Ir.StringLit} {Has : Ir.Temp → Ty → Prop} {is : List Instr}
  {n m : Nat}

theorem Grants.append (h : Grants Has (is ++ js)) : Grants Has is ∧ Grants Has js :=
  forall_mem_append.mp h

theorem Grants.temp {i : Instr} {t : Ir.Temp} (h : Grants Has (i :: is)) (result : i.result = .temp t) :
    Has t i.type := h i mem_cons_self t result

theorem Grants.tail (h : Grants Has (i :: is)) : Grants Has is :=
  (forall_mem_cons.mp h).2

/-- The address of an element is computed, as one. -/
theorem issued_addressing {a : String} {lower : Int64} {x : Value}
    (grants : Grants Has (Code.addressing n (L.address a) x lower)) (holds : L.Holds a type) (word : IsWord Has x) :
    (∀ i ∈ Code.addressing n (L.address a) x lower, Issued L strings Has i) ∧ IsCell L Has (Code.temp (n + 3)) := by
  have difference : IsWord Has (Code.temp n) := .temp (grants.temp rfl)
  have sub : operation? .minus = some .sub := rfl
  refine ⟨?_, .element (grants.tail.tail.tail.temp rfl)⟩
  simp only [Code.addressing, forall_mem_cons]
  exact ⟨.compute sub word .const, .extend difference, .scale (grants.tail.temp rfl),
    .shift holds (grants.tail.tail.temp rfl), forall_mem_nil _⟩

/-- A variable is stepped. -/
theorem issued_bump {op : Ir.Op} {a v : Value} (known : operation? kind = some op)
    (grants : Grants Has (Code.bump op n a v)) (cell : IsCell L Has a) (word : IsWord Has v) :
    ∀ i ∈ Code.bump op n a v, Issued L strings Has i := by
  have before : IsWord Has (Code.temp n) := .temp (grants.temp rfl)
  have after : IsWord Has (Code.temp (n + 1)) := .temp (grants.tail.temp rfl)
  simp only [Code.bump, forall_mem_cons]
  exact ⟨.load cell, .compute known before word, .store cell after, forall_mem_nil _⟩

theorem Emits.issued (h : Emits L ph n is m) (grants : Grants Has is) :
    (∀ i ∈ is, Issued L strings Has i) ∧ ph.Fits L Has := by
  induction h with
  | number | constant => exact ⟨forall_mem_nil _, .const⟩
  | var holds => exact ⟨forall_mem_singleton.mpr (.load (.var holds)), .temp (grants.temp rfl)⟩
  | bareCall _ callable none result =>
    refine ⟨forall_mem_singleton.mpr (.call callable ⟨fun _ => result, fun _ => rfl⟩ ?_), .temp (grants.temp rfl)⟩
    rw [none]
    exact .nil
  | element holds _ ih =>
    obtain ⟨front, last⟩ := grants.append
    obtain ⟨before, here⟩ := front.append
    obtain ⟨issued, word⟩ := ih before
    obtain ⟨addressing, address⟩ := issued_addressing here holds word
    refine ⟨?_, .temp (last.temp rfl)⟩
    rw [forall_mem_append, forall_mem_append]
    exact ⟨⟨issued, addressing⟩, forall_mem_singleton.mpr (.load address)⟩
  | binary known _ _ left right =>
    obtain ⟨front, last⟩ := grants.append
    obtain ⟨grantsLeft, grantsRight⟩ := front.append
    obtain ⟨issuedLeft, wordLeft⟩ := left grantsLeft
    obtain ⟨issuedRight, wordRight⟩ := right grantsRight
    refine ⟨?_, .temp (last.temp rfl)⟩
    rw [forall_mem_append, forall_mem_append]
    exact ⟨⟨issuedLeft, issuedRight⟩, forall_mem_singleton.mpr (.compute known wordLeft wordRight)⟩
  | call callable result _ ih =>
    obtain ⟨front, last⟩ := grants.append
    obtain ⟨issued, passed⟩ := ih front
    refine ⟨?_, .temp (last.temp rfl)⟩
    rw [forall_mem_append]
    exact ⟨issued, forall_mem_singleton.mpr (.call callable ⟨fun _ => result, fun _ => rfl⟩ passed)⟩
  | noArgs => exact ⟨forall_mem_nil _, .nil⟩
  | wordArg isWord _ _ ihWord ihArgs =>
    obtain ⟨first, later⟩ := grants.append
    obtain ⟨issued, word⟩ := ihWord first
    obtain ⟨issued', passed⟩ := ihArgs later
    exact ⟨forall_mem_append.mpr ⟨issued, issued'⟩, .cons (.word isWord word) passed⟩
  | arrayArg isArray holds holdsArray size _ ih =>
    obtain ⟨issued, passed⟩ := ih grants
    exact ⟨issued, .cons (.array isArray holds holdsArray size) passed⟩

theorem Aims.issued (h : Aims L t a n is m) (grants : Grants Has is) :
    (∀ i ∈ is, Issued L strings Has i) ∧ IsCell L Has a := by
  cases h with
  | var holds => exact ⟨forall_mem_nil _, .var holds⟩
  | element holds index =>
    obtain ⟨before, here⟩ := grants.append
    obtain ⟨issued, word⟩ := index.issued before
    obtain ⟨addressing, address⟩ := issued_addressing here holds word
    exact ⟨forall_mem_append.mpr ⟨issued, addressing⟩, address⟩

theorem Writes.issued (h : Writes L strings ts n is m) (grants : Grants Has is) :
    ∀ i ∈ is, Issued L strings Has i := by
  induction h with
  | nil => exact forall_mem_nil _
  | text literal format _ ih =>
    refine forall_mem_cons.mpr ⟨.print format ?_, ih grants.tail⟩
    rintro _ ⟨⟩
    exact .text literal
  | word emits format _ ih =>
    obtain ⟨before, later⟩ := grants.append
    obtain ⟨issued, word⟩ := emits.issued before
    refine forall_mem_append.mpr ⟨issued, forall_mem_cons.mpr ⟨.print format ?_, ih later.tail⟩⟩
    rintro _ ⟨⟩
    exact .word word

theorem Scans.issued (h : Scans L strings ts n is m) (grants : Grants Has is) :
    ∀ i ∈ is, Issued L strings Has i := by
  induction h with
  | nil => exact forall_mem_nil _
  | cons aims format _ ih =>
    obtain ⟨before, later⟩ := grants.append
    obtain ⟨issued, cell⟩ := aims.issued before
    exact forall_mem_append.mpr ⟨issued, forall_mem_cons.mpr ⟨.scan format cell, ih later.tail⟩⟩

theorem stepOp?_operation (h : stepOp? b = some op) : ∃ kind, operation? kind = some op := by
  cases b <;> cases h
  · exact ⟨.minus, rfl⟩
  · exact ⟨.plus, rfl⟩

theorem Invokes.issued (h : Invokes L strings f args n is m)
    (grants : Grants Has is) : ∀ i ∈ is, Issued L strings Has i := by
  cases h with
  | procedure callable void emits =>
    obtain ⟨before, -⟩ := grants.append
    obtain ⟨issued, passed⟩ := emits.issued before
    refine forall_mem_append.mpr ⟨issued, forall_mem_singleton.mpr (.call callable ?_ passed)⟩
    exact ⟨nofun, fun function => absurd void function⟩
  | function callable result emits =>
    obtain ⟨before, -⟩ := grants.append
    obtain ⟨issued, passed⟩ := emits.issued before
    refine forall_mem_append.mpr ⟨issued, forall_mem_singleton.mpr (.call callable ?_ passed)⟩
    exact ⟨fun _ => result, fun _ => rfl⟩
  | write _ writes => exact writes.issued grants
  | writeln _ writes newline =>
    obtain ⟨before, -⟩ := grants.append
    exact forall_mem_append.mpr ⟨writes.issued before, forall_mem_singleton.mpr (.print newline nofun)⟩
  | readln _ scans => exact scans.issued grants
  | step _ known aims =>
    obtain ⟨kind, operation⟩ := stepOp?_operation known
    obtain ⟨before, later⟩ := grants.append
    obtain ⟨issued, cell⟩ := aims.issued before
    exact forall_mem_append.mpr ⟨issued, issued_bump operation later cell .const⟩
  | stepBy _ known emits aims =>
    obtain ⟨kind, operation⟩ := stepOp?_operation known
    obtain ⟨front, later⟩ := grants.append
    obtain ⟨amount, target⟩ := front.append
    obtain ⟨issued, word⟩ := emits.issued amount
    obtain ⟨issued', cell⟩ := aims.issued target
    rw [forall_mem_append, forall_mem_append]
    exact ⟨⟨issued, issued'⟩, issued_bump operation later cell word⟩

theorem Straight.issued (h : Straight L strings t n is m) (grants : Grants Has is) :
    ∀ i ∈ is, Issued L strings Has i := by
  cases h with
  | value emits | element emits => exact (emits.issued grants).1
  | bareCall _ invokes | call invokes => exact invokes.issued grants
  | assign emits aims =>
    obtain ⟨front, -⟩ := grants.append
    obtain ⟨value, target⟩ := front.append
    obtain ⟨issued, word⟩ := emits.issued value
    obtain ⟨issued', cell⟩ := aims.issued target
    rw [forall_mem_append, forall_mem_append]
    exact ⟨⟨issued, issued'⟩, forall_mem_singleton.mpr (.store cell word)⟩
  | assignArray holds isArray holds' isArray' size =>
    exact forall_mem_singleton.mpr (.copy holds isArray holds' isArray' size)

/-! ## Lines -/

/-- The instructions among lines. -/
def instrsOf (ls : List Line) : List Instr := ls.filterMap Line.instr?

@[simp] theorem instrsOf_nil : instrsOf [] = [] := rfl

@[simp] theorem instrsOf_label (l : String) (ls : List Line) : instrsOf (.label l :: ls) = instrsOf ls := rfl

@[simp] theorem instrsOf_instr (i : Instr) (ls : List Line) : instrsOf (.instr i :: ls) = i :: instrsOf ls := rfl

@[simp] theorem instrsOf_append (ls ms : List Line) : instrsOf (ls ++ ms) = instrsOf ls ++ instrsOf ms :=
  filterMap_append

@[simp] theorem instrsOf_plain (is : List Instr) : instrsOf (plain is) = is := Ir.filterMap_instr?_plain is

theorem issued_rejoin {ends : Bool} {l : String} : ∀ i ∈ instrsOf (rejoin ends l), Issued L strings Has i := by
  cases ends with
  | true => exact forall_mem_nil _
  | false => exact forall_mem_singleton.mpr .jump

theorem issued_again {down ends : Bool} {x cond : String} (holds : L.Holds x .integer)
    (grants : Grants Has (instrsOf (Code.again down ends n (L.address x) cond))) :
    ∀ i ∈ instrsOf (Code.again down ends n (L.address x) cond), Issued L strings Has i := by
  cases ends with
  | true => exact forall_mem_nil _
  | false =>
    have lines : instrsOf (Code.again down false n (L.address x) cond) =
        Code.bump (if down then .sub else .add) n (L.address x) (.const 1) ++ [Code.jump cond] := by
      simp [Code.again]
    have known : operation? (if down then .minus else .plus) = some (if down then .sub else .add) := by
      cases down <;> rfl
    exact forall_mem_append.mpr ⟨issued_bump known grants.append.1 (.var holds) .const, forall_mem_singleton.mpr .jump⟩

/-- Every instruction of a statement is an instruction of a body. -/
theorem Lowers.issued {ls : List Line}
 (h : Lowers L strings ret brk piece n k ls ends n' k') (grants : Grants Has (instrsOf ls)) :
    ∀ i ∈ instrsOf ls, Issued L strings Has i := by
  induction h with
  | straight straight =>
    rw [instrsOf_plain] at grants ⊢
    exact straight.issued grants
  | absent | nil => exact forall_mem_nil _
  | leave | exit => exact forall_mem_singleton.mpr .jump
  | @branch _ _ _ _ _ _ _ _ yesEnds _ _ _ _ noEnds _ _ _ _ cond _ _ ihYes ihNo =>
    have join (l : String) : instrsOf (if (yesEnds && noEnds) = true then [] else [.label l]) = [] := by
      split <;> rfl
    simp only [Code.branchLines, Grants, instrsOf_append, instrsOf_plain, instrsOf_instr,
      instrsOf_label, join, forall_mem_append, forall_mem_cons] at grants ⊢
    obtain ⟨grantsCond, -, ⟨grantsYes, -⟩, ⟨grantsNo, -⟩, -⟩ := grants
    obtain ⟨issued, word⟩ := cond.issued grantsCond
    exact ⟨issued, .branch word, ⟨ihYes grantsYes, issued_rejoin⟩, ⟨ihNo grantsNo, issued_rejoin⟩, forall_mem_nil _⟩
  | @count _ _ _ _ _ _ _ _ _ _ _ _ _ _ _ _ _ _ down holds start stop _ ih =>
    have known : operation? (if down then .ge else .le) = some (if down then .cge else .cle) := by
      cases down <;> rfl
    simp only [Code.countLines, Grants, instrsOf_append, instrsOf_plain,
      instrsOf_label, instrsOf_nil, forall_mem_append, forall_mem_cons] at grants ⊢
    obtain ⟨⟨⟨grantsStart, grantsStop⟩, -⟩, ⟨loaded, tested, -⟩, ⟨grantsBody, grantsAgain⟩, -⟩ := grants
    obtain ⟨issued, first⟩ := start.issued grantsStart
    obtain ⟨issued', last⟩ := stop.issued grantsStop
    have value : IsWord Has (Code.temp _) := .temp (loaded _ rfl)
    have test : IsWord Has (Code.temp _) := .temp (tested _ rfl)
    exact ⟨⟨⟨issued, issued'⟩, .store (.var holds) first, .jump, forall_mem_nil _⟩,
      ⟨.load (.var holds), .compute known value last, .branch test, forall_mem_nil _⟩,
      ⟨ih grantsBody, issued_again holds grantsAgain⟩, forall_mem_nil _⟩
  | loop cond _ ih =>
    simp only [Code.loopLines, Grants, instrsOf_append, instrsOf_plain, instrsOf_instr,
      instrsOf_label, instrsOf_nil, forall_mem_append, forall_mem_cons] at grants ⊢
    obtain ⟨-, ⟨grantsCond, -⟩, ⟨grantsBody, -⟩, -⟩ := grants
    obtain ⟨issued, word⟩ := cond.issued grantsCond
    exact ⟨.jump, ⟨issued, .branch word, forall_mem_nil _⟩, ⟨ih grantsBody, issued_rejoin⟩, forall_mem_nil _⟩
  | block _ ih | last _ ih => exact ih grants
  | cons _ _ ihFirst ihRest =>
    rw [instrsOf_append] at grants ⊢
    obtain ⟨first, rest⟩ := grants.append
    exact forall_mem_append.mpr ⟨ihFirst first, ihRest rest⟩

end Bodies

/-! ## Functions -/

/-- An instruction in front of the body of a routine. -/
inductive Entered (h : Header) : Instr → Prop
  | alloc : h.slots[i]? = some v → Entered h (Code.alloc v.1 i v.2)
  | array : h.params[i]? = some v → v.2.isArray = true →
    Entered h (Code.copy (.temp (parameterTemp v.1)) (Code.slot v.1 i) v.2.size)
  | word : h.params[i]? = some v → v.2.isArray = false →
    Entered h (Code.store (Code.slot v.1 i) (.temp (parameterTemp v.1)))
  | clear :
    h.result ≠ .void → Entered h (Code.store (Code.slot h.name (Code.ownIndex h)) (.const 0))

/-- An instruction behind the body of a routine. -/
inductive Left (h : Header) (Has : Ir.Temp → Ty → Prop) : Instr → Prop
  | plain : h.result = .void → Left h Has { op := .ret }
  | fetch : h.result ≠ .void → Left h Has (Code.load n (Code.slot h.name (Code.ownIndex h)))
  | value : h.result ≠ .void → Has t .word → Left h Has { op := .ret, args := [.temp t] }

theorem mem_each {f : Nat → String × VarType → List Instr} : x ∈ Code.each f i vs ↔ ∃ j v, vs[j]? = some v ∧ x ∈ f (i + j) v := by
  induction vs generalizing i with
  | nil => simp [Code.each]
  | cons v vs ih =>
    rw [Code.each, mem_append, ih]
    constructor
    · rintro (first | ⟨j, w, here, member⟩)
      · exact ⟨0, v, rfl, first⟩
      · exact ⟨j + 1, w, here, by rwa [← Nat.add_assoc, Nat.add_right_comm]⟩
    · rintro ⟨j, w, here, member⟩
      cases j with
      | zero =>
        cases here
        exact .inl member
      | succ j => exact .inr ⟨j, w, here, by rwa [Nat.add_right_comm, Nat.add_assoc]⟩

section Routine

variable {h : Header}

theorem own_slot (function : h.result ≠ .void) : h.slots[Code.ownIndex h]? = some (h.name, .integer) :=
  slots_own (j := 0) (by simp [Header.own, function])

theorem entered_of_mem (member : x ∈ Code.enter h) : Entered h x := by
  rw [Code.enter, mem_append, mem_append, mem_each, mem_each, mem_each] at member
  rcases member with (⟨j, v, here, inside⟩ | ⟨j, v, here, inside⟩) | ⟨j, v, here, inside⟩
  · rw [Nat.zero_add, Code.enterParam, mem_cons, mem_singleton] at inside
    rcases inside with rfl | rfl
    · exact .alloc (slots_param here)
    · split
      · next isArray => exact .array here isArray
      · next isWord => exact .word here (Bool.eq_false_of_not_eq_true isWord)
  · cases mem_singleton.mp inside
    exact .alloc (slots_local here)
  · have slot := slots_own here
    rw [Code.enterOwn, mem_cons, mem_singleton] at inside
    rcases inside with rfl | rfl
    · exact .alloc slot
    · unfold Header.own at here
      split at here
      · cases here
      · next function =>
        cases j with
        | zero =>
          cases here
          exact .clear function
        | succ j => cases here

/-- Every slot is allocated. -/
theorem alloc_mem_enter (here : h.slots[i]? = some v) :
    Code.alloc v.1 i v.2 ∈ Code.enter h := by
  rw [Code.enter, mem_append, mem_append, mem_each, mem_each, mem_each]
  rw [Header.slots, getElem?_append, getElem?_append, length_append] at here
  split at here
  · split at here
    · exact .inl (.inl ⟨i, v, here, by simp [Code.enterParam]⟩)
    · next behind =>
      refine .inl (.inr ⟨i - h.params.length, v, here, ?_⟩)
      rw [Nat.add_sub_of_le (Nat.le_of_not_lt behind)]
      exact mem_cons_self
  · next behind =>
    refine .inr ⟨i - (h.params.length + h.locals.length), v, here, ?_⟩
    rw [Code.ownIndex, Nat.add_sub_of_le (Nat.le_of_not_lt behind)]
    exact mem_cons_self

end Routine

theorem instrs_eq_instrsOf (f : Ir.Func) : f.instrs = instrsOf f.lines := Ir.instrs_eq f

theorem instrsOf_framed (enter leave : List Instr) (ls : List Line) (ends : Bool) (ret : String) :
    instrsOf (Code.framed enter ls ends ret leave) =
      enter ++ (instrsOf ls ++ (instrsOf (rejoin ends ret) ++ leave)) := by
  simp [Code.framed]

section Function

variable {o : Outline} {strings : List Ir.StringLit} {f : Ir.Func}

theorem grants_assigns : Grants f.Assigns f.instrs := fun i member _ result => ⟨i, member, result, rfl⟩

variable {x : Instr}

/-- An instruction of a function stands in its body, in front of it or behind it. -/
theorem BodyCode.instr_cases {leave : Nat → List Instr}
 (code : BodyCode L strings n enter leave body f.blocks) (member : x ∈ f.instrs) :
    x ∈ enter ∨ Issued L strings f.Assigns x ∨ ∃ m, x ∈ leave m ∧ ∀ y ∈ leave m, y ∈ f.instrs := by
  obtain ⟨r, ls, ends, n', k', lowers, listed⟩ := code
  have instrs : f.instrs = enter ++ (instrsOf ls ++ (instrsOf (rejoin ends (retLabel r)) ++ leave n')) := by
    rw [instrs_eq_instrsOf, Ir.Func.lines, listed, instrsOf_framed]
  have grants : Grants f.Assigns f.instrs := grants_assigns
  rw [instrs] at grants
  rw [instrs, mem_append, mem_append, mem_append] at member
  rcases member with front | inside | jump | behind
  · exact .inl front
  · exact .inr (.inl (lowers.issued grants.append.2.append.1 x inside))
  · exact .inr (.inl (issued_rejoin x jump))
  · refine .inr (.inr ⟨n', behind, fun y there => ?_⟩)
    rw [instrs]
    simp [there]

theorem BodyCode.enter_subset {leave : Nat → List Instr}
 (code : BodyCode L strings n enter leave body f.blocks) (member : x ∈ enter) : x ∈ f.instrs := by
  obtain ⟨r, ls, ends, n', k', lowers, listed⟩ := code
  rw [instrs_eq_instrsOf, Ir.Func.lines, listed, instrsOf_framed]
  exact mem_append_left _ member

theorem RoutineCode.instr_cases (code : RoutineCode o strings d f) (member : x ∈ f.instrs) :
    Entered d.header x ∨ Issued (layout o d.seen d.header.slots) strings f.Assigns x ∨ Left d.header f.Assigns x := by
  rcases code.blocks.instr_cases member with front | body | ⟨m, behind, there⟩
  · exact .inl (entered_of_mem front)
  · exact .inr (.inl body)
  · refine .inr (.inr ?_)
    unfold Code.leave at behind there
    split at behind
    · next void =>
      cases mem_singleton.mp behind
      exact .plain void
    · next function =>
      rw [if_neg function] at there
      rcases mem_cons.mp behind with rfl | last
      · exact .fetch function
      · cases mem_singleton.mp last
        exact .value function ⟨_, there _ mem_cons_self, rfl, rfl⟩

theorem MainCode.instr_cases (code : MainCode o strings f) (member : x ∈ f.instrs) :
    Issued (layout o o.headers []) strings f.Assigns x ∨ x = { op := .ret, args := [.const 0] } := by
  rcases code.blocks.instr_cases member with front | body | ⟨m, behind, -⟩
  · cases front
  · exact .inl body
  · exact .inr (mem_singleton.mp behind)

end Function

/-! ## Programs -/

theorem Issued.noAlloc
    {Has : Ir.Temp → Ty → Prop} (h : Issued L strings Has i) : i.op ≠ .alloc := by
  cases h with
  | compute known => exact (operation?_simple known).noAlloc
  | _ => exact nofun

/-- Where the code of a body stands: the headers that it can see are declared, and its function
allocates its slots and nothing else. -/
structure Scene (o : Outline) (f : Ir.Func) (seen : List Header) (slots : Vars) :
    Prop where
  declared : ∀ h ∈ seen, h ∈ o.headers
  allocated : ∀ (i : Nat) (v : String × VarType), slots[i]? = some v → Code.alloc v.1 i v.2 ∈ f.instrs
  allocs : ∀ x ∈ f.instrs, x.op = .alloc → ∃ (i : Nat) (v : String × VarType), slots[i]? = some v ∧
    x = Code.alloc v.1 i v.2

namespace Scene

variable {o : Outline} {f : Ir.Func} {seen : List Header} {slots : Vars}

/-- A variable has a slot, or is a global one. -/
theorem address_cases (o : Outline) (seen : List Header)
    (holds : (layout o seen slots).Holds x type) :
    (∃ i, (layout o seen slots).address x = Code.slot x i ∧ slots[i]? = some (x, type)) ∨
      (layout o seen slots).address x = .global ("pasg_" ++ x) ∧ (x, type) ∈ o.globals := by
  have typed : (slots.lookup x).or (o.globals.lookup x) = some type := holds.2
  cases found : slots.lookup x with
  | some type' =>
    rw [found, Option.some_or] at typed
    cases typed
    exact .inl ⟨_, if_pos (mem_names_of_lookup found), getElem?_idxOf_of_lookup found⟩
  | none =>
    rw [found, Option.none_or] at typed
    exact .inr ⟨if_neg (lookup_eq_none_iff.mp found), Table.mem_of_lookup typed⟩

/-- What is called is declared and has a body somewhere. -/
theorem callable_cases (scene : Scene o f seen slots)
    (callable : (layout o seen slots).Callable g sig) :
    (∃ h ∈ o.headers, h.name = g ∧ h.signature = sig) ∧ o.Defined g := by
  obtain ⟨-, found, defined⟩ := callable
  obtain ⟨h, first, rfl⟩ := Option.map_eq_some_iff.mp found
  have named := find?_some first
  exact ⟨⟨h, scene.declared h (mem_of_find?_eq_some first), eq_of_beq named, rfl⟩, defined⟩

end Scene

section Program

variable {o : Outline} {strings : List Ir.StringLit} {f : Ir.Func}

theorem RoutineCode.scene (code : RoutineCode o strings d f)
    (member : d ∈ definitions [] o.headers) : Scene o f d.seen d.header.slots where
  declared h inside := by
    obtain ⟨pre, h', post, body, split, -, rfl⟩ := mem_definitions.mp member
    rw [split]
    simp only [nil_append, mem_append, mem_singleton] at inside ⊢
    rcases inside with before | rfl
    · exact .inl before
    · exact .inr mem_cons_self
  allocated i v here := code.blocks.enter_subset (alloc_mem_enter here)
  allocs x inside isAlloc := by
    rcases code.instr_cases inside with front | body | behind
    · cases front with
      | alloc here => exact ⟨_, _, here, rfl⟩
      | array | word | clear => cases isAlloc
    · exact absurd isAlloc body.noAlloc
    · cases behind <;> cases isAlloc

theorem MainCode.scene (code : MainCode o strings f) : Scene o f o.headers [] where
  declared _ inside := inside
  allocated _ _ here := by cases here
  allocs x inside isAlloc := by
    rcases code.instr_cases inside with body | rfl
    · exact absurd isAlloc body.noAlloc
    · cases isAlloc

/-- An instruction of a program stands in a body, around the body of a routine, or at the end of the
main body. -/
theorem Compiled.instr_cases (compiled : Compiled o p)
    (member : f ∈ p.funcs) {x : Instr} (inside : x ∈ f.instrs) :
    (∃ seen slots, Scene o f seen slots ∧ Issued (layout o seen slots) p.strings f.Assigns x) ∨
      (∃ d ∈ definitions [] o.headers, RoutineCode o p.strings d f ∧ (Entered d.header x ∨ Left d.header f.Assigns x)) ∨
      MainCode o p.strings f ∧ x = { op := .ret, args := [.const 0] } := by
  rcases compiled.cases member with main | ⟨d, defined, code⟩
  · rcases main.instr_cases inside with body | last
    · exact .inl ⟨_, _, main.scene, body⟩
    · exact .inr (.inr ⟨main, last⟩)
  · rcases code.instr_cases inside with front | body | behind
    · exact .inr (.inl ⟨d, defined, code, .inl front⟩)
    · exact .inl ⟨_, _, code.scene defined, body⟩
    · exact .inr (.inl ⟨d, defined, code, .inr behind⟩)

end Program

end MiniPascal.Lower
