import MiniPascal.Proofs.Lower.Function
import MiniPascal.Proofs.Lower.Program

/-!
# What lowering accepts and returns

A program that was read is accepted exactly if it keeps the static rules, and then the code is well
formed and has a sound control flow; else every error is one of the program. The check of the code that
follows lowering never fails.
-/

namespace MiniPascal.Lower

open Static (outline? Outline)
open Tree (IsProgram)

theorem eq_ok_of_toOption {ε α : Type} {r : Except ε α} {a : α} (h : r.toOption = some a) : r = .ok a := by
  cases r with
  | error => cases h
  | ok b => exact congrArg Except.ok (Option.some.inj h)

/-- A source text is read and lowered if this is what an evaluation comes to. -/
theorem exists_compiled {on : Switches Feature} {c : Settings} {f : Tree → Ir.Program → α} {a : α}
    (found : ((Tree.ofSource on source).toOption.bind fun t => (lower c t).code.toOption.map (f t)) = some a) :
    ∃ t p, Tree.ofSource on source = .ok t ∧ (lower c t).code = .ok p ∧ f t p = a := by
  obtain ⟨t, read, found⟩ := Option.bind_eq_some_iff.mp found
  obtain ⟨p, lowered, same⟩ := Option.map_eq_some_iff.mp found
  exact ⟨t, p, eq_ok_of_toOption read, eq_ok_of_toOption lowered, same⟩

/-- The result of lowering: the code of a correct program, or errors. -/
theorem lower_cases (ht : IsProgram t) (c : Settings) : ∃ o, outline? t = some o ∧
    (o.Correct (c.features .multiWrite) ∧ (∃ p, (lower c t).code = .ok p ∧ Compiled o p ∧ p.WellFormed) ∨
      ¬ o.Correct (c.features .multiWrite) ∧ ∃ ds, (lower c t).code = .error ds ∧ ds ≠ [] ∧
        ∀ d ∈ ds, d.category = .semantic) := by
  obtain ⟨o, s, outline, outcome, quiet, semantic, compiles⟩ := lower_outcome ht c
  refine ⟨o, outline, ?_⟩
  rw [outcome]
  by_cases correct : o.Correct (c.features .multiWrite)
  · have compiled := compiles correct
    have wellFormed := compiled.wellFormed (Static.written_of_isProgram ht outline)
    refine .inl ⟨correct, s.program c.wordSize, ?_, compiled, wellFormed⟩
    simp [State.outcome, quiet.mpr correct, Ir.Program.problems_eq_nil wellFormed]
  · have faults : s.faults ≠ [] := mt quiet.mp correct
    refine .inr ⟨correct, s.faults, ?_, faults, semantic⟩
    simp [State.outcome, faults]

theorem compiled_of_ok (ht : IsProgram t)
    (ok : (lower c t).code = .ok p) : ∃ o, outline? t = some o ∧
      o.Correct (c.features .multiWrite) ∧ Compiled o p ∧ p.WellFormed := by
  obtain ⟨o, outline, ⟨correct, p', ok', compiled⟩ | ⟨-, ds, failed, -⟩⟩ := lower_cases ht c
  · cases ok.symm.trans ok'
    exact ⟨o, outline, correct, compiled⟩
  · cases ok.symm.trans failed

/-- A program with an array parameter, a call in front of the body of the callee, and a loop that is left
in two ways. -/
def sample : String :=
  "program p; var a: array [1 .. 2] of integer;
  function f(b: array [0 .. 1] of integer): integer; forward;
  procedure g; begin writeln(f(a)) end;
  function f(c: array [0 .. 1] of integer): integer;
  begin while c[0] > 1 do begin if c[0] = 2 then break else exit end; f := c[0] end;
  begin readln(a[1]); g end."

theorem sample_compiles : ∃ t p, Tree.ofSource Feature.strict sample = .ok t ∧
    (lower {} t).code = .ok p ∧ p.funcs.map (·.name) = ["pas_g", "pas_f", "main"] :=
  exists_compiled (by decide +kernel)

/-- Lowering accepts exactly the correct programs. -/
theorem lower_ok_iff_correct {on : Switches Feature} {source : String} {t : Tree}
    (read : Tree.ofSource on source = .ok t) (c : Settings) :
    (∃ p, (lower c t).code = .ok p) ↔ ∃ o, outline? t = some o ∧ o.Correct (c.features .multiWrite) := by
  obtain ⟨o, outline, ⟨correct, p, ok, -⟩ | ⟨incorrect, ds, error, -⟩⟩ :=
    lower_cases (Tree.isProgram_of_ofSource read) c
  · exact ⟨fun _ => ⟨o, outline, correct⟩, fun _ => ⟨p, ok⟩⟩
  · constructor
    · rintro ⟨p, ok⟩
      cases error.symm.trans ok
    · rintro ⟨o', outline', correct⟩
      cases outline.symm.trans outline'
      exact absurd correct incorrect

theorem lower_ok_iff_correct_sample : ∃ t o, Tree.ofSource Feature.strict sample = .ok t ∧
    outline? t = some o ∧ o.Correct true := by
  obtain ⟨t, p, read, ok, -⟩ := sample_compiles
  obtain ⟨o, outline, correct⟩ := (lower_ok_iff_correct read {}).mp ⟨p, ok⟩
  exact ⟨t, o, read, outline, correct⟩

/-- What lowering returns is well formed, and nothing but the program is ever at fault. -/
theorem lower_wellFormed_or_semantic {on : Switches Feature} {source : String} {t : Tree}
    (read : Tree.ofSource on source = .ok t) (c : Settings) :
    (∃ p, (lower c t).code = .ok p ∧ p.problems = [] ∧ p.WellFormed) ∨
      ∃ ds, (lower c t).code = .error ds ∧ ds ≠ [] ∧ ∀ d ∈ ds, d.category = .semantic := by
  obtain ⟨o, -, ⟨-, p, ok, -, wellFormed⟩ | ⟨-, error⟩⟩ := lower_cases (Tree.isProgram_of_ofSource read) c
  · exact .inl ⟨p, ok, Ir.Program.problems_eq_nil wellFormed, wellFormed⟩
  · exact .inr error

theorem lower_wellFormed_or_semantic_sample : ∃ t p, Tree.ofSource Feature.strict sample = .ok t ∧
    (lower {} t).code = .ok p ∧ p.problems = [] ∧ p.WellFormed := by
  obtain ⟨t, p, read, ok, -⟩ := sample_compiles
  rcases lower_wellFormed_or_semantic read {} with ⟨p', ok', sound⟩ | ⟨ds, error, -⟩
  · exact ⟨t, p', read, ok', sound⟩
  · cases error.symm.trans ok

/-- What lowering returns has a sound control flow, and no block is there only for code that is never
reached. -/
theorem lower_soundFlow {on : Switches Feature} {source : String} {t : Tree} {c : Settings}
    {p : Ir.Program} (read : Tree.ofSource on source = .ok t) (ok : (lower c t).code = .ok p) :
    ∀ f ∈ p.funcs, f.SoundFlow ∧ ∀ b ∈ f.blocks, ∀ n, b.label ≠ numbered "dead" n := by
  obtain ⟨o, -, -, compiled, -⟩ := compiled_of_ok (Tree.isProgram_of_ofSource read) ok
  exact fun f member => compiled.soundFlow member

theorem lower_soundFlow_sample : ∃ t p, Tree.ofSource Feature.strict sample = .ok t ∧
    (lower {} t).code = .ok p ∧ p.funcs.map (·.name) = ["pas_g", "pas_f", "main"] ∧
    ∀ f ∈ p.funcs, f.SoundFlow ∧ ∀ b ∈ f.blocks, ∀ n, b.label ≠ numbered "dead" n := by
  obtain ⟨t, p, read, ok, names⟩ := sample_compiles
  exact ⟨t, p, read, ok, names, lower_soundFlow read ok⟩

end MiniPascal.Lower
