import MiniPascal.Qbe.Quoted
import Mathlib.Tactic.IntervalCases

/-!
# Reading quoted data

The assembler reads quoted data up to the first quote that no backslash stands before. Behind a
backslash it takes a quote, a backslash, or as many octal digits as there are, up to three, so an
escape of fewer digits would run into a digit behind it. What is quoted here is read back as it was
(`unquote_quote`), and so a text is determined by the data it is written as.
-/

open List

namespace MiniPascal.Qbe

/-! ## The reader -/

/-- Whether a character is a digit of base 8. -/
def isOctal (c : Char) : Bool := '0' ≤ c && c ≤ '7'

/-- The octal digits in front, up to three. -/
def octalFront (cs : List Char) : List Char := (cs.take 3).takeWhile isOctal

/-- The number that octal digits stand for. -/
def octalValue (ds : List Char) : Nat := ds.foldl (fun n d => 8 * n + (d.toNat - 48)) 0

/-- Reads a byte behind a backslash. -/
def unescape (cs : List Char) : Option (UInt8 × List Char) :=
  if octalFront cs ≠ [] then
    some (UInt8.ofNat (octalValue (octalFront cs)), cs.drop (octalFront cs).length)
  else if cs.head? = some '"' then some (0x22, cs.tail)
  else if cs.head? = some '\\' then some (0x5C, cs.tail)
  else none

/-- Reads a byte of quoted data. There is none before a quote. -/
def unquoteByte : List Char → Option (UInt8 × List Char)
  | [] => none
  | c :: rest =>
    if c = '\\' then unescape rest
    else if c = '"' ∨ 128 ≤ c.toNat then none
    else some (UInt8.ofNat c.toNat, rest)

theorem length_unquoteByte
    (h : unquoteByte cs = some (b, rest)) : rest.length < cs.length := by
  unfold unquoteByte unescape at h
  grind

/-- Reads quoted bytes, up to the quote behind them. -/
def unquoteBytes (cs : List Char) : Option (List UInt8 × List Char) :=
  if cs.head? = some '"' then some ([], cs.tail)
  else match _ : unquoteByte cs with
    | none => none
    | some (b, rest) => (unquoteBytes rest).map fun (bs, rest) => (b :: bs, rest)
termination_by cs.length
decreasing_by exact length_unquoteByte ‹_›

/-- Reads bytes between quotes, and returns what stands behind them. -/
def unquote : List Char → Option (List UInt8 × List Char)
  | '"' :: cs => unquoteBytes cs
  | _ => none

/-! ## Reading back -/

theorem toNat_ofNat_byte (h : n < 256) : (Char.ofNat n).toNat = n := by
  have valid : n.isValidChar := .inl (by omega)
  rw [Char.ofNat, dif_pos valid]
  rfl

theorem toNat_octalDigit (n : Nat) : (octalDigit n).toNat = 48 + n % 8 :=
  toNat_ofNat_byte (by omega)

theorem isOctal_octalDigit (n : Nat) : isOctal (octalDigit n) = true := by
  unfold octalDigit
  have bound : n % 8 < 8 := Nat.mod_lt _ (by decide)
  generalize n % 8 = k at bound
  interval_cases k <;> decide

/-- Three digits are taken, whatever stands behind them. -/
theorem unescape_octal (a b c : Nat) (rest : List Char) :
    unescape (octalDigit a :: octalDigit b :: octalDigit c :: rest) =
      some (UInt8.ofNat (64 * (a % 8) + 8 * (b % 8) + c % 8), rest) := by
  have front : octalFront (octalDigit a :: octalDigit b :: octalDigit c :: rest) =
      [octalDigit a, octalDigit b, octalDigit c] := by
    simp [octalFront, isOctal_octalDigit]
  have value : octalValue [octalDigit a, octalDigit b, octalDigit c] = 64 * (a % 8) + 8 * (b % 8) + c % 8 := by
    simp only [octalValue, foldl_cons, foldl_nil, toNat_octalDigit]
    omega
  rw [unescape, front, if_pos (cons_ne_nil _ _), value]
  rfl

/-- A byte is read back, whatever stands behind it, and no quote stands in its place. -/
theorem unquoteByte_quoteByte (b : UInt8) (rest : List Char) :
    (quoteByte b ++ rest).head? ≠ some '"' ∧ unquoteByte (quoteByte b ++ rest) = some (b, rest) := by
  have code := toNat_ofNat_byte b.toNat_lt
  unfold quoteByte
  split
  · next quoted =>
    rcases quoted with rfl | rfl
    · exact ⟨by simp, rfl⟩
    · exact ⟨by simp, rfl⟩
  · next unquoted =>
    split
    · next printable =>
      have high : b.toNat < 127 := UInt8.lt_iff_toNat_lt.mp printable.2
      have other {c : Char} (h : b.toNat ≠ c.toNat) : Char.ofNat b.toNat ≠ c := fun same =>
        h (code.symm.trans (congrArg Char.toNat same))
      have quote := other (c := '"') fun same => unquoted (.inl (UInt8.toNat_inj.mp same))
      have slash := other (c := '\\') fun same => unquoted (.inr (UInt8.toNat_inj.mp same))
      refine ⟨fun first => quote (Option.some.inj first), ?_⟩
      rw [singleton_append, unquoteByte, if_neg slash, code, if_neg (not_or.mpr ⟨quote, by omega⟩), UInt8.ofNat_toNat]
    · have digits : 64 * (b.toNat / 64 % 8) + 8 * (b.toNat / 8 % 8) + b.toNat % 8 = b.toNat := by
        have := b.toNat_lt
        omega
      refine ⟨by simp, ?_⟩
      rw [cons_append, cons_append, cons_append, singleton_append, unquoteByte,
        if_pos rfl, unescape_octal, digits, UInt8.ofNat_toNat]

theorem unquote_quoteBytes (bs : List UInt8) (rest : List Char) :
    unquote (quoteBytes bs ++ rest) = some (bs, rest) := by
  rw [quoteBytes, cons_append, unquote]
  induction bs with
  | nil => simp [unquoteBytes]
  | cons b bs ih =>
    obtain ⟨noQuote, byte⟩ := unquoteByte_quoteByte b ((bs.flatMap quoteByte ++ ['"']) ++ rest)
    rw [flatMap_cons, append_assoc, append_assoc, unquoteBytes, ← append_assoc (bs.flatMap quoteByte), if_neg noQuote]
    split
    · next none => cases byte.symm.trans none
    · next found =>
      cases byte.symm.trans found
      rw [ih]
      rfl

/-- Quoted bytes are printable. -/
theorem printable_quoteBytes (h : c ∈ quoteBytes bs) : ' ' ≤ c ∧ c ≤ '~' := by
  have of_code {c : Char} (low : 32 ≤ c.toNat) (high : c.toNat ≤ 126) : ' ' ≤ c ∧ c ≤ '~' :=
    ⟨UInt32.le_iff_toNat_le.mpr low, UInt32.le_iff_toNat_le.mpr high⟩
  have digit (n : Nat) : ' ' ≤ octalDigit n ∧ octalDigit n ≤ '~' :=
    of_code (by rw [toNat_octalDigit]; omega) (by rw [toNat_octalDigit]; omega)
  rw [quoteBytes, mem_cons, mem_append, mem_flatMap] at h
  rcases h with rfl | ⟨b, -, inside⟩ | last
  · decide
  · unfold quoteByte at inside
    split at inside
    · next quoted =>
      rw [mem_cons, mem_singleton] at inside
      rcases quoted with rfl | rfl <;> rcases inside with rfl | rfl <;> decide
    · split at inside
      · next printable =>
        have code := toNat_ofNat_byte b.toNat_lt
        rw [← mem_singleton.mp inside] at code
        have low : 32 ≤ b.toNat := UInt8.le_iff_toNat_le.mp printable.1
        have high : b.toNat < 127 := UInt8.lt_iff_toNat_lt.mp printable.2
        exact of_code (by omega) (by omega)
      · simp only [mem_cons, not_mem_nil, or_false] at inside
        rcases inside with rfl | rfl | rfl | rfl
        · decide
        · exact digit _
        · exact digit _
        · exact digit _
  · rw [mem_singleton.mp last]
    decide

/-- Quoted data is printable and is read back: all of it, with nothing taken of what stands behind it,
byte for byte. -/
theorem unquote_quote : (∀ (bs : List UInt8) (rest : List Char), unquote (quoteBytes bs ++ rest) = some (bs, rest)) ∧
    (∀ bs : List UInt8, (quoteBytes bs).all (fun c => ' ' ≤ c ∧ c ≤ '~') = true) ∧
    (∀ (b : UInt8) (rest : List Char), unquoteByte (quoteByte b ++ rest) = some (b, rest)) ∧
    ∀ s : String, unquote (quote s).toList = some (s.toUTF8.toList, []) := by
  refine ⟨unquote_quoteBytes, fun bs => ?_, fun b rest => (unquoteByte_quoteByte b rest).2,
    fun s => ?_⟩
  · exact all_eq_true.mpr fun c member => decide_eq_true (printable_quoteBytes member)
  · rw [quote, String.toList_ofList]
    simpa using unquote_quoteBytes s.toUTF8.toList []

/-! ## Texts -/

theorem toList_loop (bytes : ByteArray) (i : Nat) (front : List UInt8) :
    ByteArray.toList.loop bytes i front = front.reverse ++ bytes.data.toList.drop i := by
  fun_induction ByteArray.toList.loop bytes i front with
  | case1 i front inside ih =>
    have bound : i < bytes.data.toList.length := inside
    have here : bytes.get! i = bytes.data.toList[i] := by
      simp [ByteArray.get!, getElem!_pos bytes.data i inside]
    rw [ih, here, reverse_cons, append_assoc, singleton_append, ← drop_eq_getElem_cons bound]
  | case2 i front outside =>
    have bound : bytes.data.toList.length ≤ i := Nat.le_of_not_lt outside
    rw [drop_eq_nil_of_le bound, append_nil]

/-- A text is determined by the bytes it is written as. -/
theorem toUTF8_toList_inj {s s' : String} (h : s.toUTF8.toList = s'.toUTF8.toList) : s = s' := by
  apply String.toByteArray_inj.mp
  apply ByteArray.ext
  apply Array.toList_inj.mp
  simpa [ByteArray.toList, toList_loop] using h

theorem quote_inj {s s' : String} (h : quote s = quote s') : s = s' := by
  have chars : quoteBytes s.toUTF8.toList = quoteBytes s'.toUTF8.toList := String.ofList_injective h
  have reading := congrArg (fun cs => unquote (cs ++ [])) chars
  simp only [unquote_quoteBytes] at reading
  exact toUTF8_toList_inj (Prod.mk.inj (Option.some.inj reading)).1

/-- Quoted data stands on one line. -/
theorem newline_notMem_quote (s : String) : '\n' ∉ (quote s).toList := by
  rw [quote, String.toList_ofList]
  intro member
  exact absurd (printable_quoteBytes member).1 (by decide)

end MiniPascal.Qbe
