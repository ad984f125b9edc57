import Mathlib.Tactic.IntervalCases
import MiniPascal.Json.Read
import MiniPascal.Json.Write
import MiniPascal.Proofs.Names

/-!
# Reading what was written

What is written for a string, an integer, a truth value or an object is read again as it was, in front
of any rest that can stand behind it. A reader has enough fuel if it has more than the text has
characters.

Escapes with numbers are the one place where a character is not read by itself: a reader gathers the
numbers and joins them when something else comes. No number that is written is half of a pair, so each
of them stands for its character (`joinUnits_eq`).
-/

open List

namespace MiniPascal.JsonValue

/-! ## Strings -/

variable {n fuel : Nat} {ds rest : List Char}

theorem fourDigits?_append (h : fourDigits? ds = some (n, [])) :
    fourDigits? (ds ++ rest) = some (n, rest) := by
  rcases ds with _ | ⟨a, _ | ⟨b, _ | ⟨c, _ | ⟨d, ds⟩⟩⟩⟩ <;>
    simp [fourDigits?, Option.bind_eq_some_iff] at h
  obtain ⟨_, ha, _, hb, _, hc, _, hd, rfl, rfl⟩ := h
  simp [fourDigits?, ha, hb, hc, hd]

/-- What is written for a character: itself, an escape of one letter, or an escape with its number. -/
theorem stringChar_cases (c : Char) :
    (stringChar c = [c] ∧ c ≠ '"' ∧ c ≠ '\\' ∧ 0x20 ≤ c.toNat) ∨
    (∃ e, stringChar c = ['\\', e] ∧ e ≠ 'u' ∧ escaped? e = some c) ∨
    (stringChar c = '\\' :: 'u' :: Text.hexDigits 4 c.toNat ∧ c.toNat < 0xD800 ∧
      fourDigits? (Text.hexDigits 4 c.toNat) = some (c.toNat, [])) := by
  have numbers : ∀ n ∈ range 0x20 ++ [0x3C, 0x3E, 0x26, 0x2028, 0x2029],
      n < 0xD800 ∧ fourDigits? (Text.hexDigits 4 n) = some (n, []) := by decide +kernel
  unfold stringChar
  dsimp only
  split
  case h_6 =>
    split_ifs with back feed escape
    · exact .inr (.inl ⟨_, rfl, by decide, by rw [← Char.ofNat_toNat c, back]; rfl⟩)
    · exact .inr (.inl ⟨_, rfl, by decide, by rw [← Char.ofNat_toNat c, feed]; rfl⟩)
    · refine .inr (.inr ⟨rfl, numbers _ ?_⟩)
      simp only [Bool.or_eq_true, decide_eq_true_eq] at escape
      rw [mem_append, mem_range]
      rcases escape with ((((low | rfl) | rfl) | rfl) | line) | paragraph
      · exact .inl low
      all_goals simp_all
    · refine .inl ⟨rfl, by assumption, by assumption, ?_⟩
      simp only [Bool.or_eq_true, decide_eq_true_eq] at escape
      omega
  all_goals exact .inr (.inl ⟨_, rfl, by decide, rfl⟩)

theorem joinUnits_eq {units : List Nat} (low : ∀ n ∈ units, n < 0xD800) :
    joinUnits units = units.map Char.ofNat := by
  have one {n : Nat} (h : n < 0xD800) : unit n = Char.ofNat n := if_pos (.inl h)
  fun_induction joinUnits units with
  | case1 => rfl
  | case2 n => rw [map_singleton, one (low n (by simp))]
  | case3 high next later pair ih =>
    have := low high (by simp)
    simp only [Bool.and_eq_true, decide_eq_true_eq] at pair
    omega
  | case4 high next later single ih =>
    rw [map_cons, one (low high (by simp)), ih fun n member => low n (mem_cons_of_mem _ member)]

/-- The characters of a string are read again behind those of the escapes just before. -/
theorem readChars_flatMap {units : List Nat} (low : ∀ n ∈ units, n < 0xD800)
    (enough : (s.flatMap stringChar).length < fuel) :
    readChars fuel units (s.flatMap stringChar ++ '"' :: rest) =
      some (units.map Char.ofNat ++ s, rest) := by
  induction s generalizing fuel units with
  | nil =>
    obtain ⟨fuel, rfl⟩ := Nat.exists_eq_add_of_lt enough
    simp [readChars, joinUnits_eq low]
  | cons c s ih =>
    rw [flatMap_cons, length_append] at enough
    rw [flatMap_cons, append_assoc]
    obtain ⟨fuel, rfl⟩ : ∃ m, fuel = m + 1 := ⟨fuel - 1, by omega⟩
    rcases stringChar_cases c with
      ⟨same, quote, slash, visible⟩ | ⟨e, same, other, known⟩ | ⟨same, small, number⟩
    all_goals
      rw [same] at enough ⊢
      simp only [length_cons] at enough
    · have later := @ih fuel [] (forall_mem_nil _) (by omega)
      simp [readChars, quote, slash, visible, later, joinUnits_eq low]
    · have later := @ih fuel [] (forall_mem_nil _) (by omega)
      simp [readChars, known, later, joinUnits_eq low]
    · have later := @ih fuel (units ++ [c.toNat])
        (by simpa [or_imp, forall_and] using ⟨low, small⟩) (by omega)
      simp [readChars, fourDigits?_append number, later]

theorem readString_stringText (s : String) :
    readString (s.toList.flatMap stringChar ++ '"' :: rest) = some (s, rest) := by
  rw [readString, readChars_flatMap (forall_mem_nil _) (by rw [length_append]; omega)]
  simp

/-! ## Integers -/

/-- A number does not start with the digit 0 unless it is that. -/
theorem eq_zero_of_head?_toDigits (zero : (Nat.toDigits 10 n).head? = some '0') : n = 0 := by
  induction n using Nat.strong_induction_on with
  | _ n ih =>
    by_cases small : n < 10
    · rw [Nat.toDigits_of_lt_base small] at zero
      interval_cases n <;> simp_all [Nat.digitChar]
    · rw [Nat.toDigits_of_base_le (by decide) (by omega),
        head?_append_of_ne_nil _ Nat.toDigits_ne_nil] at zero
      have := ih (n / 10) (by omega) zero
      omega

variable {c : Char} (stops : c = ',' ∨ c = '\n')

include stops

theorem readDigits_toDigits (n : Nat) :
    readDigits (Nat.toDigits 10 n ++ c :: rest) = some (Nat.toDigits 10 n, c :: rest) := by
  have whole : (Nat.toDigits 10 n ++ c :: rest).takeWhile Char.isDigit = Nat.toDigits 10 n := by
    rw [takeWhile_append_of_pos fun _ => Nat.isDigit_of_mem_toDigits (by decide) (by decide)]
    rcases stops with rfl | rfl <;> simp
  simp [readDigits, whole]

theorem readWhole_toDigits (n : Nat) :
    readWhole (Nat.toDigits 10 n ++ c :: rest) = some (Nat.toDigits 10 n, c :: rest) := by
  unfold readWhole
  split
  · next zero =>
    rw [head?_append_of_ne_nil _ Nat.toDigits_ne_nil] at zero
    rw [eq_zero_of_head?_toDigits zero]
    rfl
  · exact readDigits_toDigits stops n

theorem readNumber_int (n : Int) :
    readNumber ((toString n).toList ++ c :: rest) = some (toString n, c :: rest) := by
  have fraction : readFraction (c :: rest) = some ([], c :: rest) := by
    rcases stops with rfl | rfl <;> rfl
  have exponent : readExponent (c :: rest) = some ([], c :: rest) := by
    rcases stops with rfl | rfl <;> rfl
  change readNumber (n.repr.toList ++ _) = some (n.repr, _)
  rw [Int.repr_eq_if]
  split
  · have unsigned : (Nat.toDigits 10 n.toNat ++ c :: rest).head? ≠ some '-' := by
      intro minus
      rw [head?_append_of_ne_nil _ Nat.toDigits_ne_nil] at minus
      have digit := Nat.isDigit_of_mem_toDigits (by decide) (by decide) (mem_of_mem_head? minus)
      exact absurd digit (by decide)
    rw [readNumber, Nat.toList_repr, if_neg unsigned]
    simp [readWhole_toDigits stops, fraction, exponent, Nat.repr]
  · simp [readNumber, readWhole_toDigits stops, fraction, exponent, Nat.repr]

omit stops

/-! ## Values -/

theorem skipSpace_lineStart (depth : Nat) :
    skipSpace ((lineStart depth).toList ++ rest) = skipSpace rest := by
  simp [lineStart, skipSpace, dropWhile_append_of_pos]

/-- What is written at a depth is read again, in front of any rest that can stand behind a field. -/
def Returns (depth : Nat) (v : JsonValue) : Prop :=
  ∀ (fuel : Nat) (c : Char) (rest : List Char), (v.render depth).toList.length ≤ fuel →
    (c = ',' ∨ c = '\n') →
    readValue (fuel + 1) ((v.render depth).toList ++ c :: rest) = some (v, c :: rest)

theorem returns_text (depth : Nat) (s : String) : Returns depth (.text s) := by
  intro fuel c rest enough stops
  simp [render, stringText, readValue, skipSpace, readString_stringText]

theorem returns_bool (depth : Nat) (b : Bool) : Returns depth (.bool b) := by
  intro fuel c rest enough stops
  cases b <;> simp [render, readValue, skipSpace, readWord] <;> rfl

theorem returns_int (depth : Nat) (n : Int) : Returns depth (.int n) := by
  intro fuel c rest enough stops
  have number : readNumber (_ ++ c :: rest) = _ := readNumber_int stops n
  change readValue (fuel + 1) ((toString n).toList ++ c :: rest) = _
  obtain ⟨d, ds, digits⟩ : ∃ d ds, (toString n).toList = d :: ds := by
    refine exists_cons_of_ne_nil fun none => ?_
    rw [none] at number
    rcases stops with rfl | rfl <;> cases number
  -- a number starts with a digit or a minus sign, and no other value does
  have other (x : Char) (sign : x.isDigit = false) (h : x ≠ '-') : d ≠ x := by
    rintro rfl
    have := mem_toString_int (n := n) (c := d) (by rw [digits]; exact mem_cons_self)
    simp_all
  rw [digits, cons_append] at number ⊢
  have visible : skipSpace (d :: (ds ++ c :: rest)) = d :: (ds ++ c :: rest) := by
    simp [skipSpace, other]
  rw [readValue, visible]
  split
  case h_1 h => cases h
  case h_5 h =>
    cases h
    rw [if_neg (other _ rfl (by decide)), if_neg (other _ rfl (by decide)),
      if_neg (other _ rfl (by decide)), number]
    rfl
  all_goals
    next h => exact absurd (List.cons.inj h).1 (other _ rfl (by decide))

/-! ## Objects -/

/-- Items that are read one by one, each in front of a comma or the end of its line, are read
together. -/
theorem readItems_intercalate {α : Type} {item : List Char → Option (α × List Char)}
    {line : α → List Char} {x : α} {xs : List α}
    (reads : ∀ y ∈ x :: xs, (line y).length < limit → ∀ (c : Char) (rest : List Char),
      (c = ',' ∨ c = '\n') → item (line y ++ c :: rest) = some (y, c :: rest))
    (other : bracket ≠ ',') (closes : skipSpace ('\n' :: back) = bracket :: rest)
    (bound : ([','].intercalate ((x :: xs).map line)).length < limit)
    (enough : ([','].intercalate ((x :: xs).map line)).length < fuel) :
    readItems item bracket fuel ([','].intercalate ((x :: xs).map line) ++ '\n' :: back) =
      some (x :: xs, rest) := by
  induction xs generalizing x fuel with
  | nil =>
    obtain ⟨fuel, rfl⟩ := Nat.exists_eq_add_of_lt enough
    rw [map_singleton, intercalate_singleton] at bound ⊢
    simp [readItems, reads x (by simp) bound, closes]
  | cons y xs ih =>
    rw [map_cons, map_cons, intercalate_cons_cons, append_assoc, ← map_cons] at bound enough ⊢
    rw [length_append, singleton_append, length_cons] at bound enough
    obtain ⟨fuel, rfl⟩ : ∃ m, fuel = m + 1 := ⟨fuel - 1, by omega⟩
    have later := @ih fuel y (fun z member => reads z (mem_cons_of_mem _ member)) (by omega) (by omega)
    rw [readItems, append_assoc, singleton_append, reads x (by simp) (by omega) ',' _ (.inl rfl)]
    simp [skipSpace, other.symm, - map_cons, later]

/-- The line of a field of an object. -/
def fieldLine (depth : Nat) : JsonField → List Char
  | .mk name v => (lineStart depth ++ (stringText name ++ ": " ++ v.render depth)).toList

theorem renderFields_eq (depth : Nat) (fs : List JsonField) :
    (renderFields depth fs).map (fun line => (lineStart depth ++ line).toList) =
      fs.map (fieldLine depth) := by
  induction fs with
  | nil => rfl
  | cons f fs ih =>
    obtain ⟨name, v⟩ := f
    rw [renderFields, map_cons, ih]
    rfl

theorem readField_fieldLine (returns : Returns depth v)
    (enough : (fieldLine depth (.mk name v)).length ≤ fuel) (stops : c = ',' ∨ c = '\n') :
    readField (readValue fuel) (fieldLine depth (.mk name v) ++ c :: rest) =
      some (.mk name v, c :: rest) := by
  simp only [fieldLine, stringText, String.toList_append, length_append, String.toList_ofList,
    length_cons] at enough
  obtain ⟨fuel, rfl⟩ : ∃ m, fuel = m + 1 := ⟨fuel - 1, by omega⟩
  have blank (cs : List Char) : readValue (fuel + 1) (' ' :: cs) = readValue (fuel + 1) cs := rfl
  have value := returns fuel c rest (by omega) stops
  rw [readField, fieldLine, String.toList_append, append_assoc, skipSpace_lineStart]
  simp [stringText, skipSpace, readString_stringText, blank, value]

theorem toList_render_object (depth : Nat) (f : JsonField) (fs : List JsonField) :
    ((object (f :: fs)).render depth).toList =
      '\x7b' :: ([','].intercalate ((f :: fs).map (fieldLine (depth + 1))) ++
        '\n' :: (replicate (2 * depth) ' ' ++ ['\x7d'])) := by
  have lines : renderFields (depth + 1) (f :: fs) ≠ [] := by
    obtain ⟨name, v⟩ := f
    simp [renderFields]
  rw [← renderFields_eq]
  simp [render, bracketed, lines, String.toList_intercalate, lineStart, Function.comp_def]

/-- An object is read if its fields are. -/
theorem readValue_object
    (returns : ∀ name v, .mk name v ∈ fs → Returns (depth + 1) v)
    (enough : ((object fs).render depth).toList.length ≤ fuel) :
    readValue (fuel + 1) (((object fs).render depth).toList ++ rest) = some (.object fs, rest) := by
  have brace (cs : List Char) : skipSpace ('\x7b' :: cs) = '\x7b' :: cs := rfl
  cases fs with
  | nil => simp [render, renderFields, bracketed, readValue, skipSpace, readList]
  | cons f fs =>
    rw [toList_render_object] at enough ⊢
    obtain ⟨lines, same⟩ :
        ∃ lines, lines = [','].intercalate ((f :: fs).map (fieldLine (depth + 1))) := ⟨_, rfl⟩
    obtain ⟨back, closing⟩ : ∃ back, back = replicate (2 * depth) ' ' ++ '\x7d' :: rest := ⟨_, rfl⟩
    rw [← same] at enough ⊢
    have bound : lines.length < fuel := by simp at enough; omega
    have items : readItems (readField (readValue fuel)) '\x7d' fuel (lines ++ '\n' :: back) =
        some (f :: fs, rest) := by
      subst same closing
      refine readItems_intercalate ?_ (by decide) ?_ bound bound
      · rintro ⟨name, v⟩ member bound c rest stops
        exact readField_fieldLine (returns name v member) (by omega) stops
      · simp [skipSpace, dropWhile_append_of_pos]
    have opens : (skipSpace (lines ++ '\n' :: back)).head? = some '"' := by
      have quote (cs : List Char) : skipSpace ('"' :: cs) = '"' :: cs := rfl
      obtain ⟨name, v⟩ := f
      cases fs <;>
        simp [same, intercalate_cons_cons, fieldLine, stringText, skipSpace_lineStart, quote]
    simp [readValue, brace, readList, opens, items, ← closing]

end MiniPascal.JsonValue
