import Mathlib.Data.List.Chain
import MiniPascal.Text.Split
import MiniPascal.Text.Wrap

/-!
# The lines of wrapped text

Wrapping cuts a text between words and nowhere else: the lines hold the words of the text in their order
(`flatMap_wrapFrom`), a line is longer than it may be only if it is a single word, and a new line is begun only
where the next word does not fit.
-/

open List

namespace MiniPascal.Text

/-! ## Parts and fields -/

theorem splitChars_ne_nil (sep : Char) (cs : List Char) : splitChars sep cs ≠ [] := by
  cases cs with
  | nil => exact cons_ne_nil _ _
  | cons c cs =>
    rw [splitChars]
    split
    · exact cons_ne_nil _ _
    · split <;> exact cons_ne_nil _ _

theorem splitChars_append (sep : Char) (xs ys : List Char) :
    splitChars sep (xs ++ sep :: ys) = splitChars sep xs ++ splitChars sep ys := by
  induction xs with
  | nil => simp [splitChars]
  | cons c xs ih =>
    obtain ⟨part, parts, cut⟩ := exists_cons_of_ne_nil (splitChars_ne_nil sep xs)
    rw [cons_append, splitChars, splitChars, ih, cut]
    by_cases same : c = sep <;> simp [same]

theorem splitChars_of_not_mem (absent : sep ∉ cs) : splitChars sep cs = [cs] := by
  induction cs with
  | nil => rfl
  | cons c cs ih =>
    rw [mem_cons, not_or] at absent
    simp [splitChars, Ne.symm absent.1, ih absent.2]

variable {width : Nat} {line word : String} {words : List String}

theorem split_joined (line word : String) : split ' ' (line ++ " " ++ word) = split ' ' line ++ split ' ' word := by
  simp [split, splitChars_append]

theorem byteSize_joined (line word : String) :
    (line ++ " " ++ word).utf8ByteSize = line.utf8ByteSize + 1 + word.utf8ByteSize := by
  rw [String.utf8ByteSize_append, String.utf8ByteSize_append]
  rfl

/-- A word is not empty and is not cut at blanks. -/
def IsWord (word : String) : Prop := word ≠ "" ∧ split ' ' word = [word]

theorem isWord_of_mem_fieldsFrom {before : List Char} (clean : ∀ c ∈ before, isSpace c = false)
    (member : word ∈ fieldsFrom before cs) : IsWord word := by
  have closed {before : List Char} {rest : List String} (clean : ∀ c ∈ before, isSpace c = false)
      (member : word ∈ closeField before rest) : IsWord word ∨ word ∈ rest := by
    unfold closeField at member
    split at member
    · exact .inr member
    next filled =>
      refine (mem_cons.mp member).imp_left ?_
      rintro rfl
      have noBlank : ' ' ∉ before.reverse := fun blank => absurd (clean ' ' (mem_reverse.mp blank)) (by decide)
      refine ⟨by simpa using filled, ?_⟩
      rw [split, String.toList_ofList, splitChars_of_not_mem noBlank]
      rfl
  induction cs generalizing before with
  | nil => exact (closed clean member).resolve_right not_mem_nil
  | cons c cs ih =>
    rw [fieldsFrom] at member
    split at member
    · exact (closed clean member).elim id (ih (forall_mem_nil _))
    next solid => exact ih (forall_mem_cons.mpr ⟨Bool.eq_false_iff.mpr solid, clean⟩) member

theorem isWord_of_mem_fields {text : String} : ∀ word ∈ fields text, IsWord word :=
  fun _ => isWord_of_mem_fieldsFrom (forall_mem_nil _)

/-! ## Lines -/

/-- A line that is not empty, and fits or is a single word. -/
def IsLine (width : Nat) (line : String) : Prop :=
  line ≠ "" ∧ (line.utf8ByteSize ≤ width ∨ split ' ' line = [line])

/-- The first word of the next line does not fit behind a line. -/
def IsFull (width : Nat) (line next : String) : Prop :=
  ∃ word, (split ' ' next).head? = some word ∧ width < (line ++ " " ++ word).utf8ByteSize

theorem IsWord.isLine (single : IsWord word) : IsLine width word := ⟨single.1, .inr single.2⟩

/-- No word is lost behind a line. -/
theorem flatMap_wrapFrom (single : ∀ word ∈ words, IsWord word) :
    (wrapFrom width line words).flatMap (split ' ') = split ' ' line ++ words := by
  induction words generalizing line with
  | nil => simp [wrapFrom]
  | cons word words ih =>
    obtain ⟨⟨-, first⟩, later⟩ := forall_mem_cons.mp single
    rw [wrapFrom]
    split
    · rw [flatMap_cons, ih later, first]
      rfl
    · rw [ih later, split_joined, first, append_assoc]
      rfl

theorem isLine_of_mem_wrapFrom (started : IsLine width line) (single : ∀ word ∈ words, IsWord word) :
    ∀ l ∈ wrapFrom width line words, IsLine width l := by
  induction words generalizing line with
  | nil => simpa [wrapFrom] using started
  | cons word words ih =>
    obtain ⟨first, later⟩ := forall_mem_cons.mp single
    rw [wrapFrom]
    split
    · exact forall_mem_cons.mpr ⟨started, ih first.isLine later⟩
    next room =>
      refine ih ⟨?_, .inl ?_⟩ later
      · simp [started.1]
      · rw [byteSize_joined]
        omega

/-- A line keeps its first word while it grows. -/
theorem exists_wrapFrom (width : Nat) (line : String) (words : List String) :
    ∃ first later, wrapFrom width line words = first :: later ∧ (split ' ' first).head? = (split ' ' line).head? := by
  induction words generalizing line with
  | nil => exact ⟨line, [], rfl, rfl⟩
  | cons word words ih =>
    rw [wrapFrom]
    split
    · exact ⟨_, _, rfl, rfl⟩
    · obtain ⟨first, later, lines, head⟩ := ih (line ++ " " ++ word)
      refine ⟨first, later, lines, head.trans ?_⟩
      have filled : split ' ' line ≠ [] := by simp [split, splitChars_ne_nil]
      rw [split_joined, head?_append, head?_eq_some_head filled]
      rfl

theorem isChain_wrapFrom (single : ∀ word ∈ words, IsWord word) :
    (wrapFrom width line words).IsChain (IsFull width) := by
  induction words generalizing line with
  | nil => simp [wrapFrom]
  | cons word words ih =>
    obtain ⟨⟨-, first⟩, later⟩ := forall_mem_cons.mp single
    rw [wrapFrom]
    split
    next full =>
      obtain ⟨next, rest, lines, head⟩ := exists_wrapFrom width word words
      have chain : (wrapFrom width word words).IsChain (IsFull width) := ih later
      rw [lines] at chain ⊢
      refine isChain_cons_cons.mpr ⟨⟨word, by rw [head, first]; rfl, ?_⟩, chain⟩
      rwa [byteSize_joined]
    · exact ih later

/-- The lines of a text hold its words in order, each fits or is a single word, and no line could take
the first word of the next one. -/
theorem wrap_lines (positive : 0 < width) (text : String) :
    (wrap width text).flatMap (split ' ') = fields text ∧ (∀ line ∈ wrap width text, IsLine width line) ∧
      (wrap width text).IsChain (IsFull width) := by
  have single : ∀ word ∈ fields text, IsWord word := isWord_of_mem_fields
  rw [wrap, if_neg (Nat.ne_of_gt positive)]
  cases words : fields text with
  | nil => simp
  | cons word words =>
    rw [words] at single
    obtain ⟨first, later⟩ := forall_mem_cons.mp single
    refine ⟨?_, isLine_of_mem_wrapFrom first.isLine later, isChain_wrapFrom later⟩
    rw [flatMap_wrapFrom later, first.2]
    rfl

/-- A word that is too long stands alone, and the next one begins a line. -/
theorem wrap_lines_seven : 0 < 7 ∧ wrap 7 " a compiler  for it" = ["a", "compiler", "for it"] ∧
    ["a", "compiler", "for it"].flatMap (split ' ') = fields " a compiler  for it" ∧
    (∀ line ∈ ["a", "compiler", "for it"], IsLine 7 line) ∧ ["a", "compiler", "for it"].IsChain (IsFull 7) := by
  have lines : wrap 7 " a compiler  for it" = ["a", "compiler", "for it"] := by decide +kernel
  exact ⟨by decide, lines, lines ▸ wrap_lines (by decide) " a compiler  for it"⟩

end MiniPascal.Text
