import MiniPascal.Proofs.Lower.Paired
import MiniPascal.Proofs.Token.Recased

/-!
# Case folding

Where case is folded, it is folded everywhere. Two texts that differ only in the case of letters outside of
strings have the same tokens but for the spelling of numbers, and no later stage looks at that spelling; so
the texts are counterparts, and neither reading nor lowering can tell them apart (`caseFold_indistinct`).
-/

namespace MiniPascal

/-- Texts that differ only in the case of letters outside of strings are counterparts. -/
theorem Reading.Recased.counterpart (recased : Recased r r') (fold : r.on .caseFold = true) :
    Counterpart r r' := by
  have alike {t u : Token} (paired : Paired r r' t u) : Token.Alike [.number] t u := by
    obtain ⟨n, rfl, rfl⟩ := paired
    exact recased.alike_token fold n
  refine ⟨recased.count_eq fold, ?_⟩
  constructor
  · exact fun paired => (alike paired).kind
  · exact fun paired => (alike paired).number
  · exact fun paired => (alike paired).line
  · exact fun paired other => (alike paired).value (by simpa using other)

/-- Where case is folded, two texts that differ only in the case of letters outside of strings return at each
call tokens of the same kind, place, length and number, and of the same value unless they are numbers. Either
both have the same fault, at the tokens of one call; or both are read as trees of the same form, which are
lowered to the same code or with the same complaints, each at tokens of one call, and with the same warnings. -/
theorem caseFold_indistinct {c : Settings} (fold : c.features .caseFold = true) {source source' : String}
    (recased : Reading.Recased ⟨c.features, 0, source⟩ ⟨c.features, 0, source'⟩) :
    let r : Reading := ⟨c.features, 0, source⟩
    let r' : Reading := ⟨c.features, 0, source'⟩
    (∀ n, Token.Alike [.number] (r.token n) (r'.token n)) ∧
    ((∃ e e', Tree.ofSource c.features source = .error e ∧ Tree.ofSource c.features source' = .error e' ∧
        e.Matches (r.Paired r') e') ∨
      ∃ t t', Tree.ofSource c.features source = .ok t ∧ Tree.ofSource c.features source' = .ok t' ∧
        t'.format = t.format ∧
        ((∃ p, (Lower.lower c t).code = .ok p ∧ (Lower.lower c t').code = .ok p) ∨
          ∃ ds ds', (Lower.lower c t).code = .error ds ∧ (Lower.lower c t').code = .error ds' ∧ ds ≠ [] ∧
            (∀ d ∈ ds, d.category = .semantic) ∧ List.Forall₂ (Diagnostic.Matches (r.Paired r')) ds ds') ∧
        List.Forall₂ (Remark.Matches (r.Paired r')) (Lower.lower c t).remarks (Lower.lower c t').remarks) :=
  ⟨recased.alike_token fold, (recased.counterpart fold).compare (c.features .negExpr) c⟩

/-- A program with words, a number and a comment in mixed case, and a string. -/
def mixedCase : String := "Program P; Var X: Integer; Begin X := $fF; WriteLn('aB') # Done\nend."

/-- The same program with its letters in other cases, but not those of the string. -/
def otherCase : String := "pROGRAM p; vAR x: iNTEGER; bEGIN x := $Ff; wRITElN('aB') # dONE\nEND."

/-- The letters outside of the string are all that the two texts differ in. -/
theorem recased_otherCase : Reading.Recased ⟨fun _ => true, 0, mixedCase⟩ ⟨fun _ => true, 0, otherCase⟩ where
  on := rfl
  file := rfl
  folded := by decide +kernel
  strings := by
    rintro i ⟨n, string, low, high⟩
    have ends : (Reading.token ⟨fun _ => true, 0, mixedCase⟩ 19).kind = .eof := by decide +kernel
    have before : n < 19 := by
      by_contra behind
      have count := (Nat.find_min' (Reading.exists_eof _) ends).trans (Nat.not_lt.mp behind)
      rw [Reading.eof_of_count_le _ count] at string
      cases string
    have strings : ∀ n < 19, (Reading.token ⟨fun _ => true, 0, mixedCase⟩ n).kind = .string →
        ∀ i < Reading.stop ⟨fun _ => true, 0, mixedCase⟩ (n + 1),
          Reading.start ⟨fun _ => true, 0, mixedCase⟩ n ≤ i → otherCase.toList[i]? = mixedCase.toList[i]? := by
      decide +kernel
    exact strings n before string i high low

theorem caseFold_indistinct_otherCase : mixedCase ≠ otherCase ∧
    ∃ t t' p, Tree.ofSource (fun _ => true) mixedCase = .ok t ∧
      Tree.ofSource (fun _ => true) otherCase = .ok t' ∧ t'.format = t.format ∧
      (Lower.lower { features := fun _ => true } t).code = .ok p ∧
      (Lower.lower { features := fun _ => true } t').code = .ok p := by
  have compiles : ((Tree.ofSource (fun _ => true) mixedCase).toOption.bind fun t =>
      (Lower.lower { features := fun _ => true } t).code.toOption).isSome = true := by
    decide +kernel
  refine ⟨by decide +kernel, ?_⟩
  obtain ⟨-, ⟨e, -, failed, -⟩ | ⟨t, t', read, read', form, code, -⟩⟩ :=
    caseFold_indistinct (c := { features := fun _ => true }) rfl recased_otherCase
  · rw [failed] at compiles
    cases compiles
  · rcases code with ⟨p, code, code'⟩ | ⟨ds, -, failed, -⟩
    · exact ⟨t, t', p, read, read', form, code, code'⟩
    · rw [read] at compiles
      rw [Except.toOption, Option.bind_some, failed] at compiles
      cases compiles

end MiniPascal
