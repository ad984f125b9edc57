import MiniPascal.Proofs.Ir.Machine
import MiniPascal.Proofs.Lower.Code
import MiniPascal.Proofs.Meaning.Evaluate

/-!
# Operators and operations

The operators of the source are defined on integers, with results that wrap; the operations of the
machine work on words. They agree, and so does the arithmetic of subscripts, which is done in two widths.
-/

namespace MiniPascal.Meaning

open BitVec hiding not_or
open Lower (operation? stepOp?)

theorem toBitVec_setWidth (value : Int64) : value.toBitVec.setWidth 32 = literal value := by
  apply eq_of_toInt_eq
  unfold literal wrap
  rw [toInt_ofInt, toInt_setWidth, Int64.toInt, toInt_eq_toNat_bmod, Int.bmod_bmod_of_dvd (by decide)]

/-! ## Arithmetic -/

theorem wrap_toInt (x : Word) : wrap x.toInt = x := ofInt_toInt

theorem wrap_add (x y : Word) : wrap (x.toInt + y.toInt) = x + y := by
  rw [wrap, ofInt_add, ofInt_toInt, ofInt_toInt]

theorem wrap_sub (x y : Word) : wrap (x.toInt - y.toInt) = x - y := by
  rw [wrap, Int.sub_eq_add_neg, ofInt_add, ofInt_neg, ofInt_toInt, ofInt_toInt, sub_eq_add_neg]

theorem wrap_mul (x y : Word) : wrap (x.toInt * y.toInt) = x * y := by
  rw [wrap, ofInt_mul, ofInt_toInt, ofInt_toInt]

theorem wrap_tdiv (x y : Word) : wrap (x.toInt.tdiv y.toInt) = x.sdiv y := by
  apply eq_of_toInt_eq
  rw [wrap, toInt_ofInt, toInt_sdiv]

theorem wrap_tmod (x y : Word) : wrap (x.toInt.tmod y.toInt) = x.srem y := by
  rw [← toInt_srem, wrap_toInt]

theorem divides_iff (x y : Word) : Divides x y ↔ ¬ (y = 0 ∨ (x = intMin 32 ∧ y = -1)) := by
  rw [not_or, ← toInt_inj, ← toInt_inj, ← toInt_inj]
  rfl

/-- An operation of the machine on words. -/
def onWords? (op : Ir.Op) (x y : Word) : Option Word :=
  (op.arithmetic? x y).or ((op.comparison? x y).map fun b => if b then 1 else 0)

theorem beq_eq_decide_toInt (x y : Word) : (x == y) = decide (x.toInt = y.toInt) := by
  rw [Bool.eq_iff_iff, beq_iff_eq, decide_eq_true_iff, toInt_inj]

theorem ite_decide (p : Prop) [Decidable p] : (if decide p then (1 : Word) else 0) = truth p := by
  simp [truth]

/-- An operator means what its operation does. -/
theorem onWords?_operation
    (known : operation? op = some operation) (h : operate? op x y = some w) : onWords? operation x y = some w := by
  cases op <;> cases known <;> simp only [operate?, Option.ite_none_right_eq_some] at h
  case plus => rw [← h, wrap_add]; rfl
  case minus => rw [← h, wrap_sub]; rfl
  case star => rw [← h, wrap_mul]; rfl
  case kwDiv =>
    rw [← h.2, wrap_tdiv, onWords?, Ir.Op.arithmetic?, if_neg ((divides_iff x y).mp h.1)]
    rfl
  case kwMod =>
    rw [← h.2, wrap_tmod, onWords?, Ir.Op.arithmetic?, if_neg ((divides_iff x y).mp h.1)]
    rfl
  case kwAnd => exact h
  case kwOr => exact h
  case eq =>
    rw [← h, ← ite_decide, ← beq_eq_decide_toInt]
    rfl
  case ne =>
    rw [← h, ← ite_decide, decide_not, ← beq_eq_decide_toInt]
    rfl
  case lt => rw [← h, ← ite_decide]; rfl
  case le => rw [← h, ← ite_decide]; rfl
  case gt => rw [← h, ← ite_decide]; rfl
  case ge => rw [← h, ← ite_decide]; rfl

/-- A step of a variable is an addition or a subtraction. -/
theorem onWords?_stepped (down : Bool) (x amount : Word) :
    onWords? (if down then .sub else .add) x amount = some (stepped down x amount) := by
  cases down with
  | false => rw [stepped, if_neg Bool.false_ne_true, wrap_add]; rfl
  | true => rw [stepped, if_pos rfl, wrap_sub]; rfl

/-- The test of a counting loop. -/
theorem onWords?_goesOn (down : Bool) (x last : Word) :
    onWords? (if down then .cge else .cle) x last = some (if goesOn down x last then 1 else 0) := by
  cases down <;> rfl

/-! ## Subscripts -/

/-- The difference of an index and a lower bound, as a word. -/
theorem sub_literal (i : Word) (lower : Int64) : i - literal lower = wrap (i.toInt - lower.toInt) := by
  rw [wrap, Int.sub_eq_add_neg, ofInt_add, ofInt_neg, ofInt_toInt, sub_eq_add_neg]
  rfl

/-- The offset of an element is computed without overflow. -/
theorem offset_toInt (h : Env.index? lower upper i = some k) :
    ((i - literal lower).signExtend 64 * (4 : Int64).toBitVec).toInt = 4 * k := by
  unfold Env.index? at h
  split at h
  · next bounds =>
    cases h
    obtain ⟨low, high, small⟩ := bounds
    have exact : (wrap (i.toInt - lower.toInt)).toInt = i.toInt - lower.toInt := by
      rw [wrap, toInt_ofInt]
      exact Int.bmod_eq_of_le (by omega) (by omega)
    rw [toInt_mul, toInt_signExtend_of_le (by decide), sub_literal, exact,
      show (4 : Int64).toBitVec.toInt = 4 from rfl, Int.bmod_eq_of_le (by omega) (by omega),
      Int.toNat_of_nonneg (by omega), Int.mul_comm]
  · cases h

/-- An element is one of the cells of its array. -/
theorem index?_lt (h : Env.index? lower upper i = some k) :
    k < (VarType.array lower upper .integer).cells := by
  unfold Env.index? at h
  split at h
  · cases h
    rw [VarType.cells, VarType.cells]
    omega
  · cases h

end MiniPascal.Meaning
