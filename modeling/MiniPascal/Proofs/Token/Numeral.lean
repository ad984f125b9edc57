import MiniPascal.Proofs.Token.Describe
import Mathlib.Data.Nat.Digits.Defs

/-!
# Number literals

A character is a digit of a base if its place among the digits `0` to `9` and `a` to `f`, of either case, is
below the base. `scan_numeral` says of every run of digits, however long, whether it is a number, and which
one, and how far is read if it is none.
-/

open List

namespace MiniPascal.Numeral

open Char

/-! ## Digits -/

/-- The place of a character among the digits, of either case; 16 if it is none. -/
def weight (c : Char) : Nat := "0123456789abcdef".toList.idxOf c.toLower

/-- The number that digits stand for, the first of them being the highest. -/
def positional (base : Nat) (ds : List Char) : Nat := Nat.ofDigits base (ds.reverse.map weight)

/-- What the classes of characters say of one. -/
structure Classified (c : Char) : Prop where
  alphanumeric : isLetterOrDigit c = c.isAlphanum
  digit : ∀ radix ∈ [Radix.decimal, .octal, .hexadecimal], radix.isDigit c = decide (weight c < radix.size)
  value : weight c < 16 → digitValue c = weight c

theorem classified_ascii : ∀ n < 128, isLetterOrDigit (Char.ofNat n) = (Char.ofNat n).isAlphanum ∧
    (∀ radix ∈ [Radix.decimal, .octal, .hexadecimal],
      radix.isDigit (Char.ofNat n) = decide (weight (Char.ofNat n) < radix.size)) ∧
    (weight (Char.ofNat n) < 16 → digitValue (Char.ofNat n) = weight (Char.ofNat n)) := by
  decide +kernel

theorem weight_of_high (high : 128 ≤ c.val) : weight c = 16 := by
  have same : c.toLower = c := by
    unfold toLower
    grind
  have none : c ∉ "0123456789abcdef".toList := by
    intro member
    have all : "0123456789abcdef".toList.all (·.val < 128) = true := by decide
    have := of_decide_eq_true (all_eq_true.mp all c member)
    grind
  rw [weight, same, idxOf_of_notMem none]
  rfl

theorem classified (c : Char) : Classified c := by
  by_cases low : c.toNat < 128
  · obtain ⟨alphanumeric, digit, value⟩ := classified_ascii c.toNat low
    rw [ofNat_toNat] at alphanumeric digit value
    exact ⟨alphanumeric, digit, value⟩
  · have high : 128 ≤ c.val := UInt32.le_iff_toNat_le.mpr (Nat.le_of_not_lt low)
    have none := weight_of_high high
    refine ⟨?_, fun radix _ => ?_, fun digit => absurd digit (by omega)⟩
    · have builtin : c.isAlphanum = (decide ('A'.val ≤ c.val ∧ c.val ≤ 'Z'.val) ||
          (decide ('a'.val ≤ c.val) && decide (c.val ≤ 'z'.val)) ||
          (decide ('0'.val ≤ c.val) && decide (c.val ≤ '9'.val))) := rfl
      simp only [isLetterOrDigit, isLetter, isDigit, Char.le_def]
      grind
    · rw [none]
      cases radix <;> simp only [Radix.isDigit, isDigit, Radix.size, Char.le_def] <;> grind

theorem isDigit_eq (radix : Radix) (c : Char) : radix.isDigit c = decide (weight c < radix.size) :=
  (classified c).digit radix (by cases radix <;> decide)

theorem isLetterOrDigit_eq : isLetterOrDigit = isAlphanum :=
  funext fun c => (classified c).alphanumeric

/-- Adding digits one after the other gives their positional value. -/
theorem digitsValue_eq (bound : base ≤ 16) {ds : List Char}
    (digits : ∀ d ∈ ds, weight d < base) : digitsValue base ds = positional base ds := by
  induction ds using List.reverseRecOn with
  | nil => rfl
  | append_singleton ds d ih =>
    obtain ⟨before, last⟩ := forall_mem_append.mp digits
    have here := forall_mem_singleton.mp last
    have value := (classified d).value (by omega)
    have step : digitsValue base (ds ++ [d]) = digitsValue base ds * base + digitValue d := by
      simp [digitsValue]
    rw [step, ih before, value, positional, positional, reverse_append, reverse_singleton,
      singleton_append, map_cons, Nat.ofDigits_cons]
    ring

/-! ## Literals -/

/-- A number starts with a decimal digit, or behind the sign of another base. -/
inductive Opens : Radix → List Char → List Char → List Char → Prop
  | decimal : c.isDigit = true → Opens .decimal (c :: cs) [] (c :: cs)
  | octal : Opens .octal ('&' :: cs) ['&'] cs
  | hexadecimal : Opens .hexadecimal ('$' :: cs) ['$'] cs

namespace Opens

variable {radix : Radix} {text lead behind : List Char}

theorem text_eq (h : Opens radix text lead behind) : text = lead ++ behind := by
  cases h <;> rfl

theorem read_eq (h : Opens radix text lead behind) (on : Switches Feature) :
    ∃ c cs, text = c :: cs ∧ Lexeme.read on c cs = Lexeme.numeral radix lead behind := by
  cases h with
  | @decimal c cs digit =>
    have digit : isDigit c = true := by
      simpa [Char.isDigit, isDigit, Char.le_def] using digit
    have code := isDigit_iff.mp digit
    have noLetter : ¬ isLetter c = true := by
      rw [isLetter_iff]
      omega
    refine ⟨c, cs, rfl, ?_⟩
    rw [Lexeme.read, if_neg noLetter, if_pos digit]
  | octal | hexadecimal => exact ⟨_, _, rfl, rfl⟩

end Opens

section Literals

variable {radix : Radix} {lead ds rest : List Char}

/-- The next character is no letter and no digit. -/
def Ends (rest : List Char) : Prop := ∀ c ∈ rest.head?, c.isAlphanum = false

theorem ends_iff : Ends rest ↔ rest.takeWhile isAlphanum = [] := by
  cases rest with
  | nil => simp [Ends]
  | cons c cs => cases h : c.isAlphanum <;> simp [Ends, h]

/-- A run of digits is a number, or an error, with what is read beyond its first character. -/
theorem numeral_eq (lead : List Char) (digits : ∀ d ∈ ds, weight d < radix.size)
    (longest : ∀ c ∈ rest.head?, ¬ weight c < radix.size) :
    let x := Lexeme.numeral radix lead (ds ++ rest)
    let taken := lead.length + ds.length + (rest.takeWhile isAlphanum).length - 1
    x = ⟨.number, String.ofList (lead ++ ds), Int64.ofNat (positional radix.size ds), taken⟩ ∧
      ds ≠ [] ∧ Ends rest ∧ positional radix.size ds ≤ 2 ^ 31 ∨
    x.kind = .error ∧ ¬ (ds ≠ [] ∧ Ends rest ∧ positional radix.size ds ≤ 2 ^ 31) ∧ (ds ≠ [] → x.more = taken) := by
  have isDigit : radix.isDigit = fun c => decide (weight c < radix.size) := funext (isDigit_eq radix)
  have none : rest.takeWhile radix.isDigit = [] ∧ rest.dropWhile radix.isDigit = rest := by
    rw [isDigit]
    cases rest with
    | nil => exact ⟨rfl, rfl⟩
    | cons c cs => simpa using longest c rfl
  have all : ∀ d ∈ ds, radix.isDigit d = true := fun d member => by simpa [isDigit] using digits d member
  have value := digitsValue_eq (by cases radix <;> decide) digits
  unfold Lexeme.numeral
  dsimp only
  rw [takeWhile_append_of_pos all, dropWhile_append_of_pos all, none.1, none.2, append_nil,
    isLetterOrDigit_eq, value, show maxLiteral = 2 ^ 31 from rfl]
  by_cases some : ds = []
  · rw [if_pos (by simpa using some)]
    exact .inr ⟨rfl, fun all => all.1 some, fun digit => absurd some digit⟩
  rw [if_neg (show ¬ ds.isEmpty = true by simpa using some)]
  by_cases ends : Ends rest
  · rw [ends_iff.mp ends, if_neg (by simp)]
    by_cases small : positional radix.size ds ≤ 2 ^ 31
    · rw [if_neg (Nat.not_lt.mpr small)]
      exact .inl ⟨rfl, some, ends, small⟩
    · rw [if_pos (Nat.lt_of_not_le small)]
      exact .inr ⟨rfl, fun all => small all.2.2, fun _ => rfl⟩
  · have tail : rest.takeWhile isAlphanum ≠ [] := fun nil => ends (ends_iff.mpr nil)
    rw [if_pos (by simpa using tail)]
    refine .inr ⟨rfl, fun all => ends all.2.1, fun _ => ?_⟩
    have := length_pos_iff.mpr some
    change lead.length + ds.length - 1 + _ = _
    omega

/-- Where a decimal digit, `&` or `$` starts a token and `ds` is the longest run of digits of its base, the
token is a number if and only if there is a digit, no letter or digit follows, and the value is at most
`2 ^ 31`. It then holds this value and the text. If not, it is an error, and if there is a digit, the letters
and digits that follow have been passed. -/
theorem scan_numeral {on : Switches Feature} (file : Int) {at_ next : Cursor}
    (starts : at_.skip (on .braceComments) = .closed next)
    (opens : Opens radix next.rest lead (ds ++ rest))
    (digits : ∀ d ∈ ds, weight d < radix.size)
    (longest : ∀ c ∈ rest.head?, ¬ weight c < radix.size) :
    ∃ t after, at_.scan on file = (t, after) ∧
      (t.kind = .number ↔ ds ≠ [] ∧ Ends rest ∧ positional radix.size ds ≤ 2 ^ 31) ∧
      (t.kind = .number → t.number.toInt = positional radix.size ds ∧ t.value = String.ofList (lead ++ ds)) ∧
      (t.kind ≠ .number → t.kind = .error) ∧
      (ds ≠ [] → after.rest = rest.dropWhile isAlphanum) := by
  obtain ⟨c, cs, text, read⟩ := opens.read_eq on
  have outcome := numeral_eq lead digits longest
  rw [← read] at outcome
  have run : at_.scan on file =
      (next.token file (Lexeme.read on c cs), next.advance ((Lexeme.read on c cs).more + 1)) := by
    simp only [Cursor.scan, starts, text]
  -- The characters passed are the lead, the digits, and the letters and digits behind them.
  have passed (some : ds ≠ []) {n : Nat}
      (more : n = lead.length + ds.length + (rest.takeWhile isAlphanum).length - 1) :
      (next.advance (n + 1)).rest = rest.dropWhile isAlphanum := by
    have split : next.rest = (lead ++ ds ++ rest.takeWhile isAlphanum) ++ rest.dropWhile isAlphanum := by
      rw [opens.text_eq, append_assoc, append_assoc, takeWhile_append_dropWhile]
    have := length_pos_iff.mpr some
    rw [Cursor.rest_advance, split, drop_left']
    rw [length_append, length_append]
    omega
  refine ⟨_, _, run, ?_⟩
  rcases outcome with ⟨same, holds⟩ | ⟨error, fails, more⟩
  · rw [same]
    refine ⟨iff_of_true rfl holds, fun _ => ⟨?_, rfl⟩, fun other => absurd rfl other, fun some => passed some rfl⟩
    have small := holds.2.2
    change (Int64.ofNat _).toInt = _
    rw [Int64.toInt_ofNat_of_lt]
    omega
  · have other : (Lexeme.read on c cs).kind ≠ .number := by
      rw [error]
      decide
    exact ⟨iff_of_false other fails, fun kind => absurd kind other, fun _ => error, fun some =>
      passed some (more some)⟩

end Literals

/-- The largest literal, in octal and with zeros in front. -/
theorem scan_numeral_octal : ∃ t after,
    (Cursor.start " &0020000000000;").scan Feature.strict 0 = (t, after) ∧ t.kind = .number ∧
      t.number.toInt = 2 ^ 31 ∧ t.value = "&0020000000000" ∧ after.rest = [';'] := by
  let next : Cursor := { rest := "&0020000000000;".toList, line := 1, column := 2 }
  have opens : Opens .octal next.rest ['&'] ("0020000000000".toList ++ [';']) := .octal
  have octal : "0020000000000".toList.all (weight · < 8) = true := by decide
  obtain ⟨t, after, run, number, holds, -, passed⟩ := scan_numeral 0 (show
    (Cursor.start " &0020000000000;").skip (Feature.strict .braceComments) = .closed next from rfl) opens
    (fun d member => of_decide_eq_true (all_eq_true.mp octal d member)) (by rintro _ ⟨⟩; decide)
  have value : positional Radix.octal.size "0020000000000".toList = 2 ^ 31 := by decide
  have kind := number.mpr ⟨by decide, by simp [Ends], value.le⟩
  obtain ⟨same, text⟩ := holds kind
  exact ⟨t, after, run, kind, by rw [same, value]; rfl, text, passed (by decide)⟩

end MiniPascal.Numeral
