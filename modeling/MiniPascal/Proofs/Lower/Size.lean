import Mathlib.Data.Nat.ModEq
import MiniPascal.Proofs.Lower.Frame
import MiniPascal.Proofs.Meaning.Basic
import MiniPascal.Proofs.Tree.Reading

/-!
# Sizes of types

The size of a type is a product of 64-bit words, and it wraps. What a type that was read holds is its
number of integers, `VarType.cells`, so its size is exact just as long as four times that number is a
signed word (`VarType.Proper.fits_iff`). Array types are compared by their sizes: two of them pass as
equal iff they hold the same number of integers modulo `2 ^ 62`.
-/

namespace MiniPascal

namespace VarType.Proper

variable {type type' : VarType}

/-- The size is four times the number of integers, modulo `2 ^ 64`. -/
theorem size_eq (h : type.Proper) : type.size = Int64.ofInt (4 * type.cells) := by
  induction h with
  | integer => rfl
  | @array lower upper elem _ _ ordered _ ih =>
    have count : ((upper.toInt - lower.toInt + 1).toNat : Int) = upper.toInt - lower.toInt + 1 :=
      Int.toNat_of_nonneg (by omega)
    have length : upper - lower + 1 = Int64.ofInt (upper.toInt - lower.toInt + 1) := by
      rw [Int64.ofInt_add, Int64.ofInt_sub, Int64.ofInt_toInt, Int64.ofInt_toInt]
      rfl
    calc
      (VarType.array lower upper elem).size
          = Int64.ofInt (upper.toInt - lower.toInt + 1) * Int64.ofInt (4 * elem.cells) := by
        rw [VarType.size, length, ih]
      _ = Int64.ofInt (4 * (VarType.array lower upper elem).cells) := by
        rw [← Int64.ofInt_mul, VarType.cells, Int.natCast_mul, count, Int.mul_left_comm]

theorem toInt_size (h : type.Proper) : type.size.toInt = (4 * type.cells : Int).bmod (2 ^ 64) := by
  rw [h.size_eq, Int64.toInt_ofInt]
  rfl

/-- There is room for one integer at least. -/
theorem cells_pos (h : type.Proper) : 0 < type.cells := by
  induction h with
  | integer => exact Nat.one_pos
  | array _ _ ordered _ ih => exact Nat.mul_pos (by omega) ih

/-- The size is exact iff it is a signed word. -/
theorem fits_iff (h : type.Proper) : type.Fits ↔ 4 * type.cells < 2 ^ 63 := by
  unfold VarType.Fits
  rw [h.toInt_size]
  constructor
  · intro exact
    have bound : (4 * type.cells : Int).bmod (2 ^ 64) < _ := Int.bmod_lt (by decide)
    omega
  · intro small
    exact Int.bmod_eq_of_le (by omega) (by omega)

/-- Sizes are the same iff the numbers of integers are, modulo `2 ^ 62`. -/
theorem size_eq_iff (h : type.Proper) (h' : type'.Proper) :
    type.size = type'.size ↔ type.cells ≡ type'.cells [MOD 2 ^ 62] := by
  rw [← Int64.toInt_inj, h.toInt_size, h'.toInt_size, Nat.ModEq]
  constructor
  · intro same
    have same' := congrArg (· % ((2 ^ 64 : Nat) : Int)) same
    simp only [Int.bmod_emod] at same'
    omega
  · intro same
    rw [← Int.emod_bmod, ← Int.emod_bmod (4 * type'.cells : Int)]
    congr 1
    omega

end VarType.Proper

/-- A type that is read off good tokens is proper. -/
theorem Tree.proper_of_readType (lexical : s.Lexical)
    (read : readType s = .ok x) : x.value.Proper := by
  have run : (Pull.type (s.size + 1)).run s = some (.ok (x.value, x.rest)) := by
    rw [(Pull.follows_type (Nat.lt_succ_self s.size)).run, read]
    rfl
  have made := Pull.madeAt_of_run List.suffix_rfl run
  exact VarType.Made.proper (c := .same s.tokens False) lexical made.made

theorem Stream.Lexical.drop {s : Stream} (h : s.Lexical) (n : Nat) : (s.drop n).Lexical :=
  fun t listed => h t (List.mem_of_mem_drop listed)

namespace Lower

/-- A whole array is taken where another one is wanted iff the sizes are the same. -/
theorem arrayAddress_eq_iff
    (found : resolve name s = (.storage v, s')) (array : v.type.isArray = true) (tok : Token) (want : VarType)
    (use : ArrayUse) : arrayAddress (.name tok name) want use s = (some v.address, s') ↔ v.type.size = want.size := by
  by_cases same : v.type.size = want.size
  · simp [arrayAddress, found, array, same]
  · have refused : (arrayAddress (.name tok name) want use s).1 = none := by
      simp [arrayAddress, found, array, same, -bind_pure_comp]
    refine iff_of_false (fun taken => ?_) same
    rw [taken] at refused
    cases refused

/-- The size of a type that stands anywhere in a text is exact iff four times the number of integers it
holds is a signed 64-bit word, and then it is 4 at least. An array of this type is taken for an array of
another type that stands in a text iff they hold the same number of integers modulo `2 ^ 62`; where both
sizes are exact, iff they hold the same number of integers. -/
theorem size_of_readType {on on' : Switches Feature} {file file' : Int} {source source' : String}
    {m n : Nat} {x : Parsed VarType ((tokenize on file source).drop m).size}
    {y : Parsed VarType ((tokenize on' file' source').drop n).size}
    (read : Tree.readType ((tokenize on file source).drop m) = .ok x)
    (read' : Tree.readType ((tokenize on' file' source').drop n) = .ok y) :
    (x.value.size.toInt = 4 * x.value.cells ↔ 4 * x.value.cells < 2 ^ 63) ∧
    (4 * x.value.cells < 2 ^ 63 → 4 ≤ x.value.size.toInt) ∧
    ∀ (s s' : State) (tok : Token) (name : String) (use : ArrayUse) (v : Variable),
      resolve name s = (.storage v, s') → v.type = x.value → x.value.isArray = true →
      (arrayAddress (.name tok name) y.value use s = (some v.address, s') ↔
        x.value.cells ≡ y.value.cells [MOD 2 ^ 62]) ∧
      (4 * x.value.cells < 2 ^ 63 → 4 * y.value.cells < 2 ^ 63 →
        (arrayAddress (.name tok name) y.value use s = (some v.address, s') ↔ x.value.cells = y.value.cells)) := by
  have proper := Tree.proper_of_readType ((lexical_tokenize on file source).drop m) read
  have proper' := Tree.proper_of_readType ((lexical_tokenize on' file' source').drop n) read'
  refine ⟨proper.fits_iff, fun small => ?_, fun s s' tok name use v found type array => ?_⟩
  · have exact : x.value.size.toInt = 4 * x.value.cells := proper.fits_iff.mpr small
    have positive := proper.cells_pos
    omega
  · have check := arrayAddress_eq_iff found (type ▸ array) tok y.value use
    rw [type, proper.size_eq_iff proper'] at check
    refine ⟨check, fun small small' => check.trans ?_⟩
    rw [Nat.ModEq, Nat.mod_eq_of_lt (by omega), Nat.mod_eq_of_lt (by omega)]

/-- The state in which one global variable is known. -/
def knowing (name : String) (v : Variable) : State := { globals := Table.insert {} name v }

theorem resolve_knowing (name : String) (v : Variable) : resolve name (knowing name v) =
      (.storage v, { knowing name v with
        globals := (knowing name v).globals.insert name { v with used := true } }) := by
  have found : (knowing name v).globals.get? name = some v := Table.get?_insert_self _ name v
  simp only [resolve, bind_apply, get_apply, found]
  rfl

/-- Two arrays of six integers. -/
def sixes : String :=
  "program p; var a: array [1 .. 6] of integer; var b: array [-1 .. 0] of array [0 .. 2] of integer;
  begin end."

theorem size_of_readType_sixes : ∃ x y, Tree.readType ((tokenize Feature.strict 0 sixes).drop 6) = .ok x ∧
      Tree.readType ((tokenize Feature.strict 0 sixes).drop 18) = .ok y ∧
      x.value.cells = 6 ∧ x.value.size = 24 ∧ y.value.cells = 6 ∧
      ∀ tok, (arrayAddress (.name tok "a") y.value .source
        (knowing "a" ⟨.global, x.value, .global "a", tok, false⟩)).1 = some (.global "a") := by
  obtain ⟨x, read, type⟩ : ∃ x, Tree.readType ((tokenize Feature.strict 0 sixes).drop 6) = .ok x ∧
      x.value = .array 1 6 .integer := exists_ok_of_map (by decide +kernel)
  obtain ⟨y, read', type'⟩ : ∃ y, Tree.readType ((tokenize Feature.strict 0 sixes).drop 18) = .ok y ∧
      y.value = .array (-1) 0 (.array 0 2 .integer) := exists_ok_of_map (by decide +kernel)
  have cells : x.value.cells = 6 := by rw [type]; decide
  have cells' : y.value.cells = 6 := by rw [type']; decide
  obtain ⟨-, -, check⟩ := size_of_readType read read'
  refine ⟨x, y, read, read', cells, by rw [type]; decide, cells', fun tok => ?_⟩
  have found := resolve_knowing "a" ⟨.global, x.value, .global "a", tok, false⟩
  have taken := (check _ _ tok "a" .source _ found rfl (by rw [type]; rfl)).2 (by omega) (by omega)
  rw [taken.mpr (cells.trans cells'.symm)]

/-- Two arrays whose sizes wrap to 0: one holds twice as many integers as the other one. -/
def wrapped : String :=
  "program p; var a: array [0 .. 2147483647] of array [0 .. 2147483647] of integer;
  var b: array [1 .. 2] of array [0 .. 2147483647] of array [0 .. 2147483647] of integer; begin a := b end."

/-- A size can be wrong and 0, and then arrays of different lengths pass for one another. -/
theorem size_of_readType_wrapped : ∃ x y, Tree.readType ((tokenize Feature.strict 0 wrapped).drop 6) = .ok x ∧
      Tree.readType ((tokenize Feature.strict 0 wrapped).drop 25) = .ok y ∧
      x.value.cells = 2 ^ 62 ∧ y.value.cells = 2 ^ 63 ∧ x.value.size = 0 ∧ y.value.size = 0 ∧
      ∀ tok, (arrayAddress (.name tok "b") x.value .source
        (knowing "b" ⟨.global, y.value, .global "b", tok, false⟩)).1 = some (.global "b") := by
  obtain ⟨x, read, type⟩ : ∃ x, Tree.readType ((tokenize Feature.strict 0 wrapped).drop 6) = .ok x ∧
      x.value = .array 0 2147483647 (.array 0 2147483647 .integer) := exists_ok_of_map (by decide +kernel)
  obtain ⟨y, read', type'⟩ : ∃ y, Tree.readType ((tokenize Feature.strict 0 wrapped).drop 25) = .ok y ∧
        y.value = .array 1 2 (.array 0 2147483647 (.array 0 2147483647 .integer)) :=
    exists_ok_of_map (by decide +kernel)
  refine ⟨x, y, read, read', by rw [type]; decide, by rw [type']; decide, by rw [type]; decide,
    by rw [type']; decide, fun tok => ?_⟩
  have found := resolve_knowing "b" ⟨.global, y.value, .global "b", tok, false⟩
  have check := arrayAddress_eq_iff found (by rw [type']; rfl) tok x.value .source
  have same : y.value.size = x.value.size := by rw [type, type']; decide
  rw [check.mpr same]

end Lower

end MiniPascal
