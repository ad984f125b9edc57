import MiniPascal.Compile
import MiniPascal.Proofs.Dialect.Reading
import MiniPascal.Proofs.Lower.Matched

/-!
# The extended dialect

Writing several values at once extends what can be lowered. The flag for it is looked at in one place,
where its absence makes a fault; so a run without faults is the same run with it. Together with the
tokens and trees of `Dialect.Reading`, this makes the extended dialect a conservative extension of the
strict one: what compiles in the strict dialect compiles in the extended one to the same code, the same
text and the same warnings.
-/

namespace MiniPascal

open Feature

/-- Allowing several arguments changes nothing about a program that is lowered without them. -/
theorem Lower.lower_multi (program : t.IsProgram)
    (made : ∀ lax, Tree.Made (.same w lax) .program t t) (off : d.features .multiWrite = false)
    (words : d'.wordSize = d.wordSize) (warnings : d'.warnings = d.warnings)
    (lowered : (lower d t).code = .ok p) : lower d' t = lower d t := by
  rcases lower_same program (made True) d d' (.inr ⟨trivial, off⟩) words with ⟨-, ds, failed⟩ | ⟨code, remarks⟩
  · cases failed.symm.trans lowered
  · have enabled := enabled_remarks program (made False) d'
    rw [warnings, enabled_remarks program (made False)] at remarks
    rw [warnings, ← remarks] at enabled
    calc lower d' t = ⟨(lower d' t).code, (lower d' t).remarks⟩ := rfl
      _ = _ := by rw [code, ← enabled]

/-! ## Dialects -/

theorem ofSource_extended (read : Tree.ofSource strict source = .ok t) :
    tokenize extended 0 source = tokenize strict 0 source ∧ Tree.ofSource extended source = .ok t := by
  have sameCase : extended .caseFold = strict .caseFold := rfl
  have same : tokenize extended 0 source = tokenize strict 0 source :=
    tokensFrom_braces rfl sameCase 0 (.start source) (clean_of_ofTokens read)
  unfold Tree.ofSource
  rw [same]
  exact ⟨rfl, Tree.extends_ofTokens read⟩

theorem eq_ok_of_mapError {ε ε' α : Type} {f : ε → ε'} {r : Except ε α} {a : α}
    (h : r.mapError f = .ok a) : r = .ok a := by
  cases r with
  | error e => cases h
  | ok b => exact congrArg Except.ok (Except.ok.inj h)

/-- The extended dialect is a conservative extension of the strict one, whatever else is set: a text that
is read and lowered in the strict dialect has the same tokens, the same tree, the same code, the same
text in the language of the backend and the same warnings in the extended one. -/
theorem extended_conservative {c strict extended : Settings}
    (mila : c.setDialect "mila" = .ok strict) (ext : c.setDialect "ext" = .ok extended)
    {source : String} {t : Tree} {p : Ir.Program} (read : parseSource strict source = .ok t)
    (lowered : (lowerTree strict t).result = .ok p) :
    tokenize extended.features 0 source = tokenize strict.features 0 source ∧
    parseSource extended source = .ok t ∧
    (lowerTree extended t).result = .ok p ∧
    renderProgram extended p = renderProgram strict p ∧
    compileSource extended source = compileSource strict source ∧
    ∀ v, Remark.renderAll v extended.warnings (lowerTree extended t).remarks =
      Remark.renderAll v strict.warnings (lowerTree strict t).remarks := by
  cases mila
  cases ext
  obtain ⟨tokens, read'⟩ := ofSource_extended (eq_ok_of_mapError read)
  have isProgram := Tree.isProgram_of_ofSource read'
  have parsed : parseSource { c with features := extended, dialect := "ext" } source = .ok t := by
    unfold parseSource
    rw [read']
    rfl
  have same : lowerTree { c with features := extended, dialect := "ext" } t =
      lowerTree { c with features := strict, dialect := "mila" } t := by
    have same : Lower.lower { c with features := extended, dialect := "ext" } t =
        Lower.lower { c with features := strict, dialect := "mila" } t :=
      Lower.lower_multi isProgram (Tree.made_of_ofTokens read') rfl rfl rfl (eq_ok_of_mapError lowered)
    unfold lowerTree
    rw [same]
  have compiled : compileSource { c with features := extended, dialect := "ext" } source =
      compileSource { c with features := strict, dialect := "mila" } source := by
    unfold compileSource lowerSource
    rw [parsed, read]
    exact congrArg (Compilation.andThen · _) same
  rw [same]
  exact ⟨tokens, parsed, lowered, rfl, compiled, fun _ => rfl⟩

/-- A program with braces in a comment and in a string, and with a negative number. -/
def braces : String :=
  "program p; # \x7b no comment\nvar x: integer; begin x := -1; writeln('\x7b\x7d') end."

/-- The program is compiled alike for words of four bytes and without warnings. -/
theorem extended_conservative_braces : ∃ strict extended,
    (({ wordSize := 4, warnings := fun _ => false } : Settings).setDialect "mila" = .ok strict) ∧
    (({ wordSize := 4, warnings := fun _ => false } : Settings).setDialect "ext" = .ok extended) ∧
    ∃ t p, parseSource strict braces = .ok t ∧ (lowerTree strict t).result = .ok p ∧
      parseSource extended braces = .ok t ∧ (lowerTree extended t).result = .ok p := by
  refine ⟨_, _, rfl, rfl, ?_⟩
  obtain ⟨t, p, read, lowered, -⟩ : ∃ t p, Tree.ofSource strict braces = .ok t ∧
      (Lower.lower { features := strict, dialect := "mila", wordSize := 4, warnings := fun _ => false }
        t).code = .ok p ∧ () = () := Lower.exists_compiled (by decide +kernel)
  have parsed : parseSource
      { features := strict, dialect := "mila", wordSize := 4, warnings := fun _ => false }
      braces = .ok t := by
    unfold parseSource
    rw [read]
    rfl
  have code : (lowerTree
      { features := strict, dialect := "mila", wordSize := 4, warnings := fun _ => false }
      t).result = .ok p := by
    unfold lowerTree
    dsimp only [strict]
    rw [lowered]
    rfl
  obtain ⟨-, parsed', code', -⟩ :=
    extended_conservative (c := { wordSize := 4, warnings := fun _ => false }) rfl rfl parsed code
  exact ⟨t, p, parsed, code, parsed', code'⟩

end MiniPascal
