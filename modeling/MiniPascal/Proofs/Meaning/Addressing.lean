import MiniPascal.Proofs.Lower.Size
import MiniPascal.Proofs.Lower.Subscripts
import MiniPascal.Proofs.Meaning.Steps

/-!
# Addresses of elements

The address of an element is computed from that of its array in three widths: the difference of the index
and the lower bound is a 32-bit word, it is widened with its sign, and then scaled and added as a 64-bit
word. `elementAt` is this computation on words, and the machine comes to it (`reaches_addressing`). It is
the address of the element just as long as the difference is no more than the greatest signed word
(`elementAt_eq_iff`), so the elements of an array of at most `2 ^ 31` elements lie side by side.
-/

open List

namespace MiniPascal

/-- An operand is an address, where the regions of storage are placed at words. -/
def Ir.Program.Locates (p : Ir.Program) (place : Ir.Anchor → BitVec 64) (τ : Ir.Temps) (v : Ir.Value)
    (x : BitVec 64) : Prop :=
  ∃ anchor offset, p.address? τ v = some (anchor, offset) ∧ x = place anchor + BitVec.ofInt 64 offset

namespace Meaning

open Ir (Value Instr Temps Val Anchor Machine)
open Lower

/-! ## Words -/

/-- What the code of a subscript computes from the address of the array and the index. -/
def elementAt (base : BitVec 64) (lower : Int64) (i : Word) : BitVec 64 :=
  base + (i - literal lower).signExtend 64 * (4 : Int64).toBitVec

/-- An index is within bounds. -/
def InBounds (lower upper : Int64) (i : Word) : Prop := lower.toInt ≤ i.toInt ∧ i.toInt ≤ upper.toInt

section Words

variable {lower upper : Int64} {i j : Word} {base : BitVec 64}

/-- The difference wraps once it is greater than every signed word. -/
theorem toInt_sub_literal (bounded : IsLiteral lower) (above : lower.toInt ≤ i.toInt) : (i - literal lower).toInt =
      if i.toInt - lower.toInt < 2 ^ 31 then i.toInt - lower.toInt else i.toInt - lower.toInt - 2 ^ 32 := by
  have least := bounded.1
  have greatest : i.toInt < 2 ^ 31 := BitVec.toInt_lt
  rw [sub_literal, wrap, BitVec.toInt_ofInt]
  split
  · exact Int.bmod_eq_of_le (by omega) (by omega)
  · rw [← Int.sub_bmod_right]
    exact Int.bmod_eq_of_le (by omega) (by omega)

theorem elementAt_eq (base : BitVec 64) (lower : Int64) (i : Word) :
    elementAt base lower i = base + BitVec.ofInt 64 (4 * (i - literal lower).toInt) := by
  rw [elementAt, BitVec.signExtend, Int.mul_comm, BitVec.ofInt_mul]
  rfl

/-- Offsets are the same iff they are modulo `2 ^ 64`. -/
theorem add_ofInt_inj : base + BitVec.ofInt 64 x = base + BitVec.ofInt 64 y ↔ x % 2 ^ 64 = y % 2 ^ 64 := by
  rw [BitVec.add_right_inj, ← BitVec.toNat_inj, BitVec.toNat_ofInt, BitVec.toNat_ofInt]
  omega

theorem elementAt_eq_iff (bounded : IsLiteral lower) (above : lower.toInt ≤ i.toInt) :
    elementAt base lower i = base + BitVec.ofInt 64 (4 * (i.toInt - lower.toInt)) ↔ i.toInt - lower.toInt < 2 ^ 31 := by
  rw [elementAt_eq, add_ofInt_inj, toInt_sub_literal bounded above]
  split
  · next small => exact iff_of_true rfl small
  · next large =>
    refine iff_of_false (fun same => ?_) large
    omega

/-- Where nothing wraps, an element is as many cells behind the start of its array as its index is above
the lower bound. -/
theorem toNat_elementAt (bounded : IsLiteral lower) (inside : InBounds lower upper i)
    (short : upper.toInt - lower.toInt + 1 ≤ 2 ^ 31)
    (room : base.toNat + 4 * (upper.toInt - lower.toInt + 1) ≤ 2 ^ 64) :
    ((elementAt base lower i).toNat : Int) = base.toNat + 4 * (i.toInt - lower.toInt) := by
  obtain ⟨above, below⟩ := inside
  have near : i.toInt - lower.toInt < 2 ^ 31 := by omega
  rw [elementAt_eq, toInt_sub_literal bounded above, if_pos near, BitVec.toNat_add, BitVec.toNat_ofInt]
  omega

end Words

/-- Two cells of four bytes have no byte in common. -/
def CellsApart (x y : BitVec 64) : Prop := x.toNat + 4 ≤ y.toNat ∨ y.toNat + 4 ≤ x.toNat

/-- A way to compute addresses from that of an array and an index is right for indices within bounds, as
long as these are less than `2 ^ 31` above the lower bound. -/
structure Indexing (lower upper : Int64) (address : BitVec 64 → Word → BitVec 64) : Prop where
  exact_iff : ∀ base i, InBounds lower upper i →
    (address base i = base + BitVec.ofInt 64 (4 * (i.toInt - lower.toInt)) ↔ i.toInt - lower.toInt < 2 ^ 31)
  inside : upper.toInt - lower.toInt + 1 ≤ 2 ^ 31 → ∀ base i, InBounds lower upper i →
    base.toNat + (VarType.array lower upper .integer).size.toInt ≤ 2 ^ 64 →
    base.toNat ≤ (address base i).toNat ∧
      (address base i).toNat + 4 ≤ base.toNat + (VarType.array lower upper .integer).size.toInt
  apart : upper.toInt - lower.toInt + 1 ≤ 2 ^ 31 → ∀ base i j, InBounds lower upper i →
    InBounds lower upper j → base.toNat + (VarType.array lower upper .integer).size.toInt ≤ 2 ^ 64 →
    i ≠ j → CellsApart (address base i) (address base j)

/-- The size of an array of integers of at most `2 ^ 31` elements. -/
theorem size_of_short {lower : Int64} (proper : (VarType.array lower upper .integer).Proper)
    (short : upper.toInt - lower.toInt + 1 ≤ 2 ^ 31) :
    (VarType.array lower upper .integer).size.toInt = 4 * (upper.toInt - lower.toInt + 1) := by
  have cells : ((VarType.array lower upper .integer).cells : Int) = upper.toInt - lower.toInt + 1 := by
    cases proper with
    | array _ _ ordered =>
      rw [VarType.cells, VarType.cells, Nat.mul_one]
      exact Int.toNat_of_nonneg (by omega)
  have fits : (VarType.array lower upper .integer).Fits := proper.fits_iff.mpr (by omega)
  rw [fits, cells]

theorem indexing_elementAt {lower : Int64} (proper : (VarType.array lower upper .integer).Proper) :
    Indexing lower upper (elementAt · lower ·) := by
  have bounded : IsLiteral lower := by
    cases proper with
    | array bounded => exact bounded
  refine ⟨fun base i inside => elementAt_eq_iff bounded inside.1, fun short base i inside room => ?_,
    fun short base i j inside inside' room different => ?_⟩
  · rw [size_of_short proper short] at room ⊢
    have at_ := toNat_elementAt bounded inside short room
    obtain ⟨above, below⟩ := inside
    omega
  · rw [size_of_short proper short] at room
    have first := toNat_elementAt bounded inside short room
    have second := toNat_elementAt bounded inside' short room
    have distinct : i.toInt ≠ j.toInt := mt BitVec.toInt_inj.mp different
    unfold CellsApart
    omega

/-! ## Runs -/

/-- A state that goes on with other code and other temporaries. -/
def resumed (m : Machine) (code : List Instr) (τ : Temps) : Machine :=
  { m with frame := { m.frame with code, temps := τ } }

/-- Wherever the code is executed, it comes to an address that depends on that of an array and on an
index, and does nothing else. -/
def Computes (p : Ir.Program) (code : List Instr) (array index element : Value)
    (address : BitVec 64 → Word → BitVec 64) : Prop :=
  ∀ (fill : Nat → Content) (place : Anchor → BitVec 64) (m : Machine) (rest : List Instr) (base : BitVec 64)
    (i : Word), m.frame.code = code ++ rest → p.Locates place m.frame.temps array base →
    p.word? m.frame.temps index = some i →
    ∃ τ, Ir.Reaches p fill m (resumed m rest τ) ∧ p.Locates place τ element (address base i)

section Runs

variable {p : Ir.Program} (fill : Nat → Content) {m : Machine} {n : Nat} {rest : List Instr}

theorem steps_define (inner : i.op.isTerminator = false) (code : m.frame.code = i :: rest)
    (h : (m.goTo rest).execute? p fill i = (m.goTo rest).assign? (Code.temp n) v) :
    Ir.Steps p fill m (resumed m rest (m.frame.temps.set { name := "", id := n } v)) := by
  unfold Ir.Steps
  rw [Context.next?_inner inner code, h]
  rfl

theorem steps_binary
    (known : operation? op = some operation) (code : m.frame.code = Code.compute operation type n x y :: rest)
    (value : p.binary? m.frame.temps (Code.compute operation type n x y) x y = some v) :
    Ir.Steps p fill m (resumed m rest (m.frame.temps.set { name := "", id := n } v)) := by
  refine steps_define fill (operation?_simple known).goes code ?_
  have value' : p.binary? (m.goTo rest).frame.temps (Code.compute operation type n x y) x y = some v := value
  rw [Context.execute?_compute known, value', Option.bind_some]

theorem steps_extend (code : m.frame.code = Code.extend n x :: rest)
    (value : p.word? m.frame.temps x = some w) : Ir.Steps p fill m
      (resumed m rest (m.frame.temps.set { name := "", id := n } (.long (w.signExtend 64)))) := by
  refine steps_define fill rfl code ?_
  have value' : p.word? (m.goTo rest).frame.temps x = some w := value
  simp only [Ir.Machine.execute?, Code.extend, value', Option.bind_eq_bind, Option.bind_some]

/-- The temporary of a number is assigned. -/
def assigned (τ : Temps) (n : Nat) (v : Val) : Temps := τ.set { name := "", id := n } v

theorem agree_assigned {n : Nat} (le : n ≤ k) : Agree n τ (assigned τ k v) :=
  .set le _ _

omit fill in
/-- The code of a subscript computes the address of an element. -/
theorem computes_addressing (below : Below n array) (index : Value) (lower : Int64) :
    Computes p (Code.addressing n array index lower) array index (Code.temp (n + 3)) (elementAt · lower ·) := by
  intro fill place m rest base i code located value
  obtain ⟨anchor, offset, held, rfl⟩ := located
  have minus : operation? .minus = some .sub := rfl
  have times : operation? .star = some .mul := rfl
  have plus : operation? .plus = some .add := rfl
  let difference := i - literal lower
  let scaled := difference.signExtend 64 * (4 : Int64).toBitVec
  let τ₁ := assigned m.frame.temps n (.word difference)
  let τ₂ := assigned τ₁ (n + 1) (.long (difference.signExtend 64))
  let τ₃ := assigned τ₂ (n + 2) (.long scaled)
  have subtracted : p.binary? m.frame.temps (Code.compute .sub .word n index (.const lower)) index
      (.const lower) = some (.word difference) := by
    simp only [Ir.Program.binary?, Code.compute, value, Context.word?_const, Option.bind_eq_bind, Option.bind_some]
    rfl
  have multiplied : p.binary? τ₂ (Code.compute .mul .long (n + 2) (Code.temp (n + 1)) (.const 4))
      (Code.temp (n + 1)) (.const 4) = some (.long scaled) := by
    have wide : p.long? τ₂ (Code.temp (n + 1)) = some (difference.signExtend 64) := Context.long?_temp
    simp only [Ir.Program.binary?, Code.compute, wide, Option.bind_eq_bind, Option.bind_some]
    rfl
  have added : p.binary? τ₃ (Code.compute .add .address (n + 3) array (Code.temp (n + 2))) array
      (Code.temp (n + 2)) = some (.address anchor (offset + scaled.toInt)) := by
    have kept : Agree n m.frame.temps τ₃ :=
      ((agree_assigned (Nat.le_refl n)).trans (agree_assigned (Nat.le_add_right n 1))).trans
        (agree_assigned (Nat.le_add_right n 2))
    have held' : p.address? τ₃ array = some (anchor, offset) := by rw [below.address kept]; exact held
    have bytes : p.long? τ₃ (Code.temp (n + 2)) = some scaled := Context.long?_temp
    simp only [Ir.Program.binary?, Code.compute, held', bytes, Option.bind_eq_bind, Option.bind_some]
    rfl
  refine ⟨assigned τ₃ (n + 3) (.address anchor (offset + scaled.toInt)), ?_, anchor, _, Context.address?_temp, ?_⟩
  · refine .head (steps_binary fill minus code subtracted) ?_
    refine .head (steps_extend fill rfl (Context.word?_temp difference)) ?_
    refine .head (steps_binary fill times rfl multiplied) ?_
    exact .single (steps_binary fill plus rfl added)
  · dsimp only
    rw [elementAt, BitVec.ofInt_add, BitVec.ofInt_toInt, BitVec.add_assoc]

end Runs

/-! ## Programs -/

/-- The code of a subscript: that of the index, which comes to an operand, that of the address, which
is computed from this operand and is right for every index within bounds, and the access to the cell
at this address. -/
def Indexes (p : Ir.Program) (L : Layout) (s : Subscript) (index code : List Instr) : Prop :=
  ∃ (lower upper : Int64) (n m : Nat) (i : Value) (use : List Instr)
    (address : BitVec 64 → Word → BitVec 64),
    L.Holds s.array (.array lower upper .integer) ∧ Emits L (.word s.index i) n index m ∧
    code = Code.addressing m (L.address s.array) i lower ++ use ∧
    Accesses (Code.temp (m + 3)) use ∧
    Computes p (Code.addressing m (L.address s.array) i lower) (L.address s.array) i
      (Code.temp (m + 3)) address ∧
    Indexing lower upper address

/-- Variables of a body have types that can be written, and addresses that no code of a subscript assigns. -/
theorem layout_of_mem_bodies (written : o.Written)
    (member : b ∈ bodies o) : (∀ a type, b.1.Holds a type → type.Proper) ∧ ∀ a, Below b.2.1 (b.1.address a) := by
  have inScope {seen : List Static.Header} {slots : Vars}
      (proper : ∀ v ∈ slots, v.2.Proper) (a : String) (type : VarType)
      (holds : (layout o seen slots).Holds a type) : type.Proper := by
    rcases Scene.address_cases o seen holds with ⟨k, -, here⟩ | ⟨-, declared⟩
    · exact proper _ (mem_of_getElem? here)
    · exact (written.globals _ declared).2
  rcases mem_append.mp member with routine | main
  · obtain ⟨d, defined, rfl⟩ := mem_map.mp routine
    obtain ⟨pre, h, post, body, split, -, rfl⟩ := mem_definitions.mp defined
    have declared : h ∈ o.headers := by simp [split]
    refine ⟨inScope fun v inside => ?_, below_layout o _ h.slots⟩
    rcases mem_append.mp inside with given | own
    · rcases mem_append.mp given with param | local_
      · exact (written.params h declared v param).2
      · exact (written.locals h declared v local_).2
    · unfold Static.Header.own at own
      split at own
      · cases own
      · cases mem_singleton.mp own
        exact .integer
  · cases mem_singleton.mp main
    exact ⟨inScope (forall_mem_nil _), below_layout o _ []⟩

theorem indexes_of_site
 (proper : ∀ type, L.Holds s.array type → type.Proper)
    (below : Below taken (L.address s.array)) (site : Site L taken s index code) :
    Indexes p L s index code := by
  cases site with
  | @mk n upper i m use lower le holds emits access =>
    have computes := computes_addressing (p := p) (below.mono (le.trans emits.le)) i lower
    exact ⟨lower, upper, n, m, i, use, _, holds, emits, rfl, access, computes,
      indexing_elementAt (proper _ holds)⟩

/-- In what lowering returns, every function has the code of each subscript of its body, one behind
the other, and nothing else in it widens a word. It is the code of the index, then the code that
computes an address from that of the array and the value of the index, then the access to the cell at
this address. For an index within bounds this is the address of the element iff the index is less
than `2 ^ 31` above the lower bound; so the elements of an array of at most `2 ^ 31` elements are in
cells of their own inside it. -/
theorem lower_indexes_elements {on : Switches Feature} {source : String} {t : Tree} {c : Settings}
    {p : Ir.Program} (read : Tree.ofSource on source = .ok t)
    (ok : (lower c t).code = .ok p) :
    ∃ o, Static.outline? t = some o ∧
      List.Forall₂ (fun b f => Addressed (Indexes p b.1) (subscripts b.2.2) f.instrs)
        (bodies o) p.funcs := by
  have program := Tree.isProgram_of_ofSource read
  obtain ⟨o, outline, -, compiled, -⟩ := compiled_of_ok program ok
  have written := Static.written_of_isProgram program outline
  refine ⟨o, outline, ?_⟩
  have both := (forall₂_and_left _ _).mpr
    ⟨fun b member => layout_of_mem_bodies written member, compiled.addressed⟩
  refine both.imp fun b f ⟨⟨proper, below⟩, addressed⟩ => ?_
  exact addressed.mono fun s _ _ site => indexes_of_site (proper s.array) (below s.array) site

theorem lower_indexes_elements_sample : ∃ t p o, Tree.ofSource Feature.strict sample = .ok t ∧
    (lower {} t).code = .ok p ∧ Static.outline? t = some o ∧
    (bodies o).map (fun b => (subscripts b.2.2).map (·.array)) = [[], ["c", "c", "c"], ["a"]] ∧
    List.Forall₂ (fun b f => Addressed (Indexes p b.1) (subscripts b.2.2) f.instrs)
      (bodies o) p.funcs := by
  obtain ⟨t, p, read, ok, -⟩ := sample_compiles
  obtain ⟨o, outline, indexed⟩ := lower_indexes_elements read ok
  have evaluated : ((Tree.ofSource Feature.strict sample).toOption.bind fun t =>
      (Static.outline? t).map fun o =>
        (bodies o).map fun b => (subscripts b.2.2).map (·.array)) = some [[], ["c", "c", "c"], ["a"]] := by
    decide +kernel
  have listed : (bodies o).map (fun b => (subscripts b.2.2).map (·.array)) =
      [[], ["c", "c", "c"], ["a"]] := by
    rw [read, Except.toOption, Option.bind_some, outline, Option.map_some] at evaluated
    exact Option.some.inj evaluated
  exact ⟨t, p, o, read, ok, outline, listed, indexed⟩

end Meaning

end MiniPascal
