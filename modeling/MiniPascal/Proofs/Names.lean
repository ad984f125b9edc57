import MiniPascal.Lower.Program
import Mathlib.Data.List.Basic

/-!
# Names that are never confused

Lowering builds the names of blocks and temporaries out of a word and a number, and compares types
by their written form. This module shows that nothing is lost on the way: a label determines its
number, the key of a temporary determines its number, the key of a parameter is none of these, and
the written form of a type determines the type.

Numerals hold no dot and no blank, so every name can be cut at its last dot and every written type
at its blanks.
-/

open List

namespace MiniPascal

/-! ## Cutting at a separator -/

/-- Two lists are cut where a predicate fails for the first time. -/
theorem append_span_inj {α : Type} {P : α → Bool} {xs xs' ys ys' : List α} (inside : ∀ x ∈ xs, P x = true)
    (inside' : ∀ x ∈ xs', P x = true) (stops : ∀ y ∈ ys.head?, P y = false)
    (stops' : ∀ y ∈ ys'.head?, P y = false) (eq : xs ++ ys = xs' ++ ys') : xs = xs' ∧ ys = ys' := by
  have nothing {zs : List α} (h : ∀ z ∈ zs.head?, P z = false) : zs.takeWhile P = [] := by
    cases zs with
    | nil => rfl
    | cons z zs => exact takeWhile_cons_of_neg (by simp [h z rfl])
  have fronts := congrArg (List.takeWhile P) eq
  rw [takeWhile_append_of_pos inside, takeWhile_append_of_pos inside', nothing stops,
    nothing stops', append_nil, append_nil] at fronts
  subst fronts
  exact ⟨rfl, append_cancel_left eq⟩

/-- Two lists that are cut at one separator agree on both sides of the cut, if the separator does
not occur before it. -/
theorem append_sep_inj_left {α : Type} {c : α} {xs xs' ys ys' : List α}
    (absent : c ∉ xs) (absent' : c ∉ xs') (eq : xs ++ c :: ys = xs' ++ c :: ys') : xs = xs' ∧ ys = ys' := by
  classical
  have before {zs : List α} (h : c ∉ zs) : ∀ z ∈ zs, decide (z ≠ c) = true := fun z member =>
    decide_eq_true (ne_of_mem_of_not_mem member h)
  obtain ⟨same, rest⟩ := append_span_inj (before absent) (before absent') (by simp) (by simp) eq
  exact ⟨same, (List.cons.inj rest).2⟩

/-- The same, if the separator does not occur behind the cut. -/
theorem append_sep_inj_right {α : Type} {c : α} {xs xs' ys ys' : List α}
    (absent : c ∉ ys) (absent' : c ∉ ys') (eq : xs ++ c :: ys = xs' ++ c :: ys') : xs = xs' ∧ ys = ys' := by
  have reversed : ys.reverse ++ c :: xs.reverse = ys'.reverse ++ c :: xs'.reverse := by
    simpa using congrArg List.reverse eq
  obtain ⟨hys, hxs⟩ := append_sep_inj_left (by simpa using absent) (by simpa using absent') reversed
  exact ⟨reverse_injective hxs, reverse_injective hys⟩

/-! ## Numerals -/

theorem mem_toString_nat {n : Nat} {c : Char} (h : c ∈ (toString n).toList) : c.isDigit = true := by
  have digits : c ∈ Nat.toDigits 10 n := by
    rw [← Nat.toList_repr]
    exact h
  exact Nat.isDigit_of_mem_toDigits (by decide) (by decide) digits

theorem mem_toString_int {n : Int} {c : Char} (h : c ∈ (toString n).toList) : c.isDigit = true ∨ c = '-' := by
  change c ∈ n.repr.toList at h
  rw [Int.repr_eq_if] at h
  split at h
  · exact Or.inl (mem_toString_nat h)
  · rw [String.toList_append, mem_append] at h
    rcases h with sign | digits
    · exact Or.inr (by simpa using sign)
    · exact Or.inl (mem_toString_nat digits)

theorem dot_notMem_toString (n : Nat) : '.' ∉ (toString n).toList := fun h =>
  absurd (mem_toString_nat h) (by decide)

theorem blank_notMem_toString (n : Int64) : ' ' ∉ (toString n).toList := by
  intro h
  rcases mem_toString_int h with digit | sign
  · exact absurd digit (by decide)
  · exact absurd sign (by decide)

theorem toString_nat_inj {m n : Nat} (h : toString m = toString n) : m = n := by
  have digits : Nat.toDigits 10 m = Nat.toDigits 10 n := by
    rw [← Nat.toList_repr, ← Nat.toList_repr]
    exact congrArg String.toList h
  have values := congrArg (fun ds => Nat.ofDigitChars 10 ds 0) digits
  simpa [Nat.ofDigitChars_ten_toDigits] using values

/-- Numerals of integers differ in the sign or in the digits. -/
theorem toString_int_inj {m n : Int} (h : toString m = toString n) : m = n := by
  have signed (a b : Nat) (same : a.repr = "-" ++ b.repr) : False := by
    have minus : '-' ∈ a.repr.toList := by simp [same]
    exact absurd (mem_toString_nat minus) (by decide)
  change m.repr = n.repr at h
  rw [Int.repr_eq_if, Int.repr_eq_if] at h
  split at h <;> split at h
  · have := toString_nat_inj h
    omega
  · exact (signed _ _ h).elim
  · exact (signed _ _ h.symm).elim
  · have := toString_nat_inj ((String.append_right_inj "-").mp h)
    omega

theorem toString_int64_inj {m n : Int64} (h : toString m = toString n) : m = n :=
  Int64.toInt_inj.mp (toString_int_inj h)

namespace Lower

/-! ## Labels -/

/-- The label that is made of a word and a number. -/
def numbered (hint : String) (n : Nat) : String := hint ++ "." ++ toString n

theorem numbered_toList (hint : String) (n : Nat) :
    (numbered hint n).toList = hint.toList ++ '.' :: (toString n).toList := by
  simp [numbered]

/-- A label determines its word and its number. -/
theorem numbered_inj {hint hint' : String} {m n : Nat} (h : numbered hint m = numbered hint' n) :
    hint = hint' ∧ m = n := by
  have lists := congrArg String.toList h
  rw [numbered_toList, numbered_toList] at lists
  obtain ⟨words, numbers⟩ := append_sep_inj_right (dot_notMem_toString m) (dot_notMem_toString n) lists
  exact ⟨String.toList_inj.mp words, toString_nat_inj (String.toList_inj.mp numbers)⟩

theorem dot_mem_numbered (hint : String) (n : Nat) : '.' ∈ (numbered hint n).toList := by
  rw [numbered_toList]
  simp

theorem numbered_ne_start (hint : String) (n : Nat) : numbered hint n ≠ "start" := by
  intro h
  have dot := dot_mem_numbered hint n
  rw [h] at dot
  exact absurd dot (by decide)

/-! ## Temporaries -/

theorem key_unnamed (n : Nat) : Ir.Temp.key { name := "", id := n } = "t" ++ toString n := by
  unfold Ir.Temp.key
  rw [if_neg (by simp), if_pos rfl]
  rfl

theorem key_named (h : name ≠ "") (n : Nat) : Ir.Temp.key { name, id := n } = numbered name n := by
  unfold Ir.Temp.key
  rw [if_neg (by simp), if_neg h]
  rfl

theorem dot_notMem_key_unnamed (n : Nat) : '.' ∉ (Ir.Temp.key { name := "", id := n }).toList := by
  rw [key_unnamed, String.toList_append, mem_append]
  rintro (lead | digits)
  · exact absurd lead (by decide)
  · exact dot_notMem_toString n digits

/-- The key of a temporary with a number determines the number, whatever the names. -/
theorem key_inj {name name' : String} {m n : Nat}
    (h : Ir.Temp.key { name, id := m } = Ir.Temp.key { name := name', id := n }) : m = n := by
  by_cases unnamed : name = "" <;> by_cases unnamed' : name' = ""
  · subst unnamed unnamed'
    rw [key_unnamed, key_unnamed] at h
    exact toString_nat_inj ((String.append_right_inj "t").mp h)
  · subst unnamed
    have dot := dot_mem_numbered name' n
    rw [← key_named unnamed' n, ← h] at dot
    exact (dot_notMem_key_unnamed m dot).elim
  · subst unnamed'
    have dot := dot_mem_numbered name m
    rw [← key_named unnamed m, h] at dot
    exact (dot_notMem_key_unnamed n dot).elim
  · rw [key_named unnamed, key_named unnamed'] at h
    exact (numbered_inj h).2

theorem key_parameterTemp (name : String) : (parameterTemp name).key = "arg_" ++ name := by
  simp [parameterTemp, Ir.Temp.key]

/-- Parameters with different names have different keys. -/
theorem key_parameterTemp_inj
    (h : (parameterTemp name).key = (parameterTemp name').key) : name = name' := by
  rw [key_parameterTemp, key_parameterTemp] at h
  exact (String.append_right_inj "arg_").mp h

/-- The key of a parameter is not that of a numbered temporary: either the latter has a dot, or the
two differ in their first letter. -/
theorem key_ne_key_parameterTemp (dotless : '.' ∉ param.toList) (name : String)
    (n : Nat) : Ir.Temp.key { name, id := n } ≠ (parameterTemp param).key := by
  intro h
  rw [key_parameterTemp] at h
  by_cases unnamed : name = ""
  · subst unnamed
    rw [key_unnamed] at h
    have lists := congrArg (fun s : String => s.toList.head?) h
    simp at lists
  · have dot := dot_mem_numbered name n
    rw [← key_named unnamed n, h, String.toList_append, mem_append] at dot
    rcases dot with lead | tail
    · exact absurd lead (by decide)
    · exact dotless tail

end Lower

/-! ## Written types -/

namespace VarType

theorem format_array_toList (lower upper : Int64) (elem : VarType) : (array lower upper elem).format.toList =
      "(array ".toList ++ ((toString lower).toList ++ ' ' ::
        ((toString upper).toList ++ ' ' :: (elem.format.toList ++ [')']))) := by
  simp [format]

/-- The written form of a type determines the type. -/
theorem format_inj {a b : VarType} (h : a.format = b.format) : a = b := by
  induction a generalizing b with
  | void | integer =>
    cases b with
    | array => simpa [format] using congrArg (fun s : String => s.toList.head?) h
    | _ => first | rfl | exact absurd h (by decide)
  | array lower upper elem ih =>
    cases b with
    | void | integer => simpa [format] using congrArg (fun s : String => s.toList.head?) h
    | array lower' upper' elem' =>
      have lists := congrArg String.toList h
      rw [format_array_toList, format_array_toList, append_cancel_left_eq] at lists
      obtain ⟨lowers, rest⟩ := append_sep_inj_left (blank_notMem_toString lower) (blank_notMem_toString lower') lists
      obtain ⟨uppers, elems⟩ := append_sep_inj_left (blank_notMem_toString upper) (blank_notMem_toString upper') rest
      have sameLower := toString_int64_inj (String.toList_inj.mp lowers)
      have sameUpper := toString_int64_inj (String.toList_inj.mp uppers)
      have sameElem := ih (String.toList_inj.mp (append_cancel_right elems))
      rw [sameLower, sameUpper, sameElem]

end VarType

end MiniPascal
