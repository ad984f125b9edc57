import MiniPascal.Backend
import MiniPascal.Proofs.Llvm.Module

/-!
# Programs that LLVM takes

Well-typed code without problems can be written for LLVM if and only if its names can be resolved in
the order of the code (`Func.Resolves`). Otherwise the failure names a function and a temporary or a
global in it that is not known. Code without problems need not resolve: a block can be listed in
front of the one that assigns what it reads, and data can be missing.
-/

open List

namespace MiniPascal.Backend

open Llvm

/-- Well-typed code without problems can be written for LLVM if and only if its names can be resolved
in the order of the code. Otherwise the failure names a function and a temporary or a global in it
that is not known. -/
theorem llvm_render_iff_resolves {p : Ir.Program} (typed : p.Typed) (verified : p.problems = []) :
    ((∃ text, llvm.render p = .ok text) ↔ ∀ f ∈ p.funcs, f.Resolves p) ∧
      ∀ failure, llvm.render p = .error failure → ∃ f ∈ p.funcs, ¬ f.Resolves p ∧
        ∃ e : Fault, e.IsUnknown ∧
          failure = .context ("function $" ++ f.name) (.plain e.message) := by
  have wellFormed : p.WellFormed := fun f member =>
    Ir.Func.causes_eq_nil_iff.mp (map_eq_nil_iff.mp (flatMap_eq_nil_iff.mp verified f member))
  rcases build_cases typed wellFormed with
    ⟨resolves, gs, built, -⟩ | ⟨f, member, unresolved, e, failed, unknown⟩
  · have rendered : llvm.render p = .ok (assembled p gs).text := by rw [render, built]
    rw [rendered]
    exact ⟨⟨fun _ => resolves, fun _ => ⟨_, rfl⟩⟩, nofun⟩
  · have rendered : llvm.render p = .error (.context ("function $" ++ f.name) (.plain e.message)) := by
      rw [render, failed]
    rw [rendered]
    refine ⟨⟨nofun, fun resolves => absurd (resolves f member) unresolved⟩, ?_⟩
    rintro failure ⟨⟩
    exact ⟨f, member, unresolved, e, unknown, rfl⟩

/-- The only function of a program. -/
def mainOf (blocks : List Ir.Block) : Ir.Func :=
  { name := "main", result := .word, exported := true, blocks }

/-- A temporary without a name. -/
def temp (n : Int) : Ir.Value := .temp { id := n }

/-- A program is well typed if its only function is. -/
theorem typed_mainOf {bs : List Ir.Block} (funcs : p.funcs = [mainOf bs])
    (names : ("main" :: p.externs.map (·.name)).Nodup)
    (each : ∀ b ∈ bs, ∀ i ∈ b.instrs, i.Typed p (mainOf bs)) : p.Typed where
  names := by rwa [funcs]
  params := by
    rw [funcs, forall_mem_singleton]
    exact nodup_nil
  instrs := by
    rw [funcs, forall_mem_singleton, Ir.Func.instrs, forall_mem_flatMap]
    exact each

/-- The sum of a word of memory and a number is printed. -/
def printSum : Ir.Program :=
  { globals := [⟨"x", 4, 4⟩], strings := [⟨"str0", "%d"⟩]
    externs := [⟨"printf", [.address], .word, true⟩]
    funcs := [mainOf [⟨"start", [
      { op := .load, type := .word, result := temp 1, args := [.global "x"] },
      { op := .add, type := .word, result := temp 2, args := [temp 1, .const 1] },
      { op := .call, type := .word, args := [.global "printf", .global "str0", temp 2],
        argTypes := [.address, .word] },
      { op := .ret, args := [.const 0] }]⟩]] }

/-- Every temporary of a function is a word. -/
theorem usedAs_word {bs : List Ir.Block}
    (words : ∀ i ∈ bs.flatMap (·.instrs), i.defined?.isSome = true → i.type = .word) :
    Ir.Value.UsedAs p (mainOf bs) (.temp t) .word := by
  refine .temp fun given has => ?_
  generalize t.key = key at has
  cases has with
  | param inside => cases inside
  | instr inside result => rw [words _ inside (by rw [Ir.Instr.defined?, result]; rfl)]

theorem llvm_render_iff_resolves_printSum : printSum.Typed ∧ printSum.problems = [] ∧
    (∀ f ∈ printSum.funcs, f.Resolves printSum) ∧ ∃ text, llvm.render printSum = .ok text := by
  have typed : printSum.Typed := by
    refine typed_mainOf rfl (by decide) ?_
    simp only [forall_mem_cons, not_mem_nil, IsEmpty.forall_iff, implies_true, and_true]
    refine ⟨.load rfl rfl (.data (by decide) rfl) rfl,
      .arith rfl rfl (usedAs_word (by decide)) (.const nofun) nofun, ?_,
      .leaveWith rfl rfl (.const nofun) nofun rfl⟩
    exact .callExtern mem_cons_self rfl rfl rfl nofun
      (.cons (.data (by decide) rfl) (.cons (usedAs_word (by decide)) .nil)) rfl
  have verified : printSum.problems = [] := by decide
  have resolves : ∀ f ∈ printSum.funcs, f.Resolves printSum := by decide
  exact ⟨typed, verified, resolves, (llvm_render_iff_resolves typed verified).1.mpr resolves⟩

/-- A temporary is defined before it is used, but in a block that is listed later. -/
def listedLate : Ir.Program :=
  { funcs := [mainOf [
      ⟨"start", [{ op := .jmp, args := [.label "second"] }]⟩,
      ⟨"first", [{ op := .add, type := .word, result := temp 2, args := [temp 1, .const 1] },
        { op := .ret, args := [temp 2] }]⟩,
      ⟨"second", [{ op := .add, type := .word, result := temp 1, args := [.const 1, .const 1] },
        { op := .jmp, args := [.label "first"] }]⟩]] }

/-- Data is read that there is not. -/
def readsNothing : Ir.Program :=
  { funcs := [mainOf [⟨"start", [
      { op := .load, type := .word, result := temp 1, args := [.global "x"] },
      { op := .ret, args := [temp 1] }]⟩]] }

/-- Well-typed code without problems can be refused. -/
theorem llvm_refuses_without_problems :
    (listedLate.Typed ∧ listedLate.problems = [] ∧ llvm.render listedLate = .error
      (.context "function $main" (.plain "temporary %t1 used before its definition"))) ∧
    readsNothing.Typed ∧ readsNothing.problems = [] ∧ llvm.render readsNothing = .error
      (.context "function $main" (.plain "unknown global $x")) := by
  refine ⟨⟨typed_mainOf rfl (by decide) ?_, by decide, by rfl⟩,
    typed_mainOf rfl (by decide) ?_, by decide, by rfl⟩
  · simp only [forall_mem_cons, not_mem_nil, IsEmpty.forall_iff, implies_true, and_true]
    exact ⟨.jump rfl rfl rfl, ⟨.arith rfl rfl (usedAs_word (by decide)) (.const nofun) nofun,
      .leaveWith rfl rfl (usedAs_word (by decide)) nofun rfl⟩,
      .arith rfl rfl (.const nofun) (.const nofun) nofun, .jump rfl rfl rfl⟩
  · simp only [forall_mem_cons, not_mem_nil, IsEmpty.forall_iff, implies_true, and_true]
    exact ⟨.load rfl rfl (.data (by decide) rfl) rfl,
      .leaveWith rfl rfl (usedAs_word (by decide)) nofun rfl⟩

end MiniPascal.Backend
