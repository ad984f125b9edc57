import MiniPascal.Proofs.Ir.Flow

/-!
# Well-formed programs

The rules of well-formed code, each said on its own. The list of problems is empty exactly for the
programs that keep them (`Program.problems_eq_nil_iff_wellFormed`): no check hides what another one
would find, and a function without blocks or a block without code is a problem by itself.
-/

open List

namespace MiniPascal.Ir

/-- A block has one terminator, as its last instruction. -/
def Block.Closed (b : Block) : Prop :=
  ∃ is i, b.instrs = is ++ [i] ∧ i.op.isTerminator = true ∧ ∀ j ∈ is, j.op.isTerminator = false

/-- A function of a program is well formed. -/
structure Func.WellFormed (p : Program) (f : Func) : Prop where
  blocks : f.blocks ≠ []
  labels : f.labels.Nodup
  once : f.definedKeys.Nodup
  apart : ∀ key ∈ f.definedKeys, key ∉ f.paramKeys
  closed : ∀ b ∈ f.blocks, b.Closed
  given : ∀ i ∈ f.instrs, .missing ∈ i.args → i.op = .ret
  temps : ∀ i ∈ f.instrs, ∀ t, .temp t ∈ i.args → t.key ∈ f.paramKeys ++ f.definedKeys
  targets : ∀ i ∈ f.instrs, ∀ l, .label l ∈ i.args → l ∈ f.labels
  callees : ∀ i ∈ f.instrs, i.op = .call → ∀ g rest, i.args = .global g :: rest →
    g ∈ p.funcs.map (·.name) ++ p.externs.map (·.name)
  returns : ∀ i ∈ f.instrs, i.op = .ret → (Func.carriesValue i = true ↔ f.result ≠ .none)

/-- A program is well formed. -/
def Program.WellFormed (p : Program) : Prop := ∀ f ∈ p.funcs, f.WellFormed p

/-- No name is listed iff none occurs twice and none has been seen. -/
theorem repeats_eq_nil_iff {xs : List String} : repeats seen xs = [] ↔ xs.Nodup ∧ ∀ x ∈ xs, x ∉ seen := by
  induction xs generalizing seen with
  | nil => simp [repeats]
  | cons x xs ih =>
    rw [repeats, nodup_cons, forall_mem_cons]
    by_cases old : x ∈ seen
    · simp [old]
    · rw [if_neg (by simpa using old), ih]
      simp only [mem_cons, not_or]
      constructor
      · intro ⟨later, apart⟩
        exact ⟨⟨fun again => (apart x again).1 rfl, later⟩, old, fun y member => (apart y member).2⟩
      · intro ⟨⟨new, later⟩, _, apart⟩
        exact ⟨later, fun y member => ⟨fun same => new (same ▸ member), apart y member⟩⟩

/-- A block is closed iff its first instruction is a terminator just when it is the last one, and
the rest, if any, is closed. -/
theorem Block.closed_cons_iff {label : String} : Block.Closed ⟨label, i :: is⟩ ↔
      i.op.isTerminator = is.isEmpty ∧ (is = [] ∨ Block.Closed ⟨label, is⟩) := by
  have more (front : List Instr) (last : Instr) : (front ++ [last]).isEmpty = false := by
    cases front <;> rfl
  constructor
  · intro ⟨front, last, whole, ends, goes⟩
    cases front with
    | nil =>
      obtain ⟨rfl, rfl⟩ := List.cons.inj whole
      exact ⟨ends, .inl rfl⟩
    | cons j front =>
      obtain ⟨rfl, rfl⟩ := List.cons.inj whole
      obtain ⟨first, later⟩ := forall_mem_cons.mp goes
      exact ⟨first.trans (more front last).symm, .inr ⟨front, last, rfl, ends, later⟩⟩
  · intro ⟨first, rest⟩
    rcases rest with rfl | ⟨front, last, rfl, ends, goes⟩
    · exact ⟨[], i, rfl, first, by simp⟩
    · exact ⟨i :: front, last, rfl, ends, forall_mem_cons.mpr ⟨first.trans (more front last), goes⟩⟩

namespace Func

variable {n : Names} {label : String} {i : Instr} {result : Ty}

theorem operandCauses_eq_nil_iff : operandCauses n label op callee v = [] ↔
      (v = .missing → op = .ret) ∧ (∀ t, v = .temp t → t.key ∈ n.temps) ∧
      (∀ l, v = .label l → l ∈ n.labels) ∧ (callee = true → ∀ g, v = .global g → g ∈ n.callees) := by
  cases v <;> simp [operandCauses]

theorem operandsCauses_eq_nil_iff : operandsCauses n label i = [] ↔
      (.missing ∈ i.args → i.op = .ret) ∧ (∀ t, .temp t ∈ i.args → t.key ∈ n.temps) ∧
      (∀ l, .label l ∈ i.args → l ∈ n.labels) ∧
      (i.op = .call → ∀ g rest, i.args = .global g :: rest → g ∈ n.callees) := by
  unfold operandsCauses
  cases i.args with
  | nil => simp
  | cons x xs =>
    simp only [append_eq_nil_iff, flatMap_eq_nil_iff, operandCauses_eq_nil_iff,
      decide_eq_true_eq, mem_cons, List.cons.injEq]
    constructor
    · intro ⟨⟨given, temps, targets, callees⟩, later⟩
      refine ⟨?_, ?_, ?_, ?_⟩
      · rintro (same | member)
        · exact given same.symm
        · exact (later _ member).1 rfl
      · rintro t (same | member)
        · exact temps t same.symm
        · exact (later _ member).2.1 t rfl
      · rintro l (same | member)
        · exact targets l same.symm
        · exact (later _ member).2.2.1 l rfl
      · intro called g rest ⟨same, _⟩
        exact callees called g same
    · intro ⟨given, temps, targets, callees⟩
      refine ⟨⟨?_, ?_, ?_, ?_⟩, fun v member => ⟨?_, ?_, ?_, nofun⟩⟩
      · exact fun same => given (.inl same.symm)
      · exact fun t same => temps t (.inl same.symm)
      · exact fun l same => targets l (.inl same.symm)
      · exact fun called g same => callees called g xs ⟨same, rfl⟩
      · exact fun same => given (.inr (same ▸ member))
      · exact fun t same => temps t (.inr (same ▸ member))
      · exact fun l same => targets l (.inr (same ▸ member))

theorem instrCauses_eq_nil_iff : instrCauses n result label last i = [] ↔
      i.op.isTerminator = last ∧ operandsCauses n label i = [] ∧
      (i.op = .ret → (carriesValue i = true ↔ result ≠ .none)) := by
  have ends : (i.op.isTerminator && !last) = false ∧ (last && !i.op.isTerminator) = false ↔
      i.op.isTerminator = last := by
    cases i.op.isTerminator <;> cases last <;> decide
  have fits : (decide (i.op = .ret) && carriesValue i != (result != .none)) = false ↔
      (i.op = .ret → (carriesValue i = true ↔ result ≠ .none)) := by
    rw [Bool.and_eq_false_iff, decide_eq_false_iff_not, bne_eq_false_iff_eq, Bool.eq_iff_iff, bne_iff_ne]
    exact Decidable.imp_iff_not_or.symm
  rw [← ends, ← fits]
  simp [instrCauses, and_assoc]

/-- Every instruction is checked by itself, and the code ends where its only terminator stands. -/
theorem instrsCauses_eq_nil_iff {is : List Instr} : instrsCauses n result label is = [] ↔
      (is = [] ∨ Block.Closed ⟨label, is⟩) ∧ ∀ i ∈ is, operandsCauses n label i = [] ∧
        (i.op = .ret → (carriesValue i = true ↔ result ≠ .none)) := by
  induction is with
  | nil => simp [instrsCauses]
  | cons i is ih =>
    rw [instrsCauses, append_eq_nil_iff, instrCauses_eq_nil_iff, ih, forall_mem_cons, Block.closed_cons_iff]
    simp only [reduceCtorEq, false_or]
    constructor
    · intro ⟨⟨ends, here⟩, closed, later⟩
      exact ⟨⟨ends, closed⟩, here, later⟩
    · intro ⟨⟨ends, closed⟩, here, later⟩
      exact ⟨⟨ends, here⟩, closed, later⟩

theorem blockCauses_eq_nil_iff {b : Block} : blockCauses n result b = [] ↔
      b.Closed ∧ ∀ i ∈ b.instrs, operandsCauses n b.label i = [] ∧
        (i.op = .ret → (carriesValue i = true ↔ result ≠ .none)) := by
  obtain ⟨label, is⟩ := b
  cases is with
  | nil => simp [blockCauses, Block.Closed]
  | cons i is =>
    rw [blockCauses, if_neg (by simp), instrsCauses_eq_nil_iff]
    simp only [reduceCtorEq, false_or]

theorem blocksCauses_eq_nil_iff {blocks : List Block} : blocks.flatMap (blockCauses n result) = [] ↔
      (∀ b ∈ blocks, b.Closed) ∧ ∀ i ∈ blocks.flatMap (·.instrs),
        (.missing ∈ i.args → i.op = .ret) ∧ (∀ t, .temp t ∈ i.args → t.key ∈ n.temps) ∧
        (∀ l, .label l ∈ i.args → l ∈ n.labels) ∧
        (i.op = .call → ∀ g rest, i.args = .global g :: rest → g ∈ n.callees) ∧
        (i.op = .ret → (carriesValue i = true ↔ result ≠ .none)) := by
  simp only [flatMap_eq_nil_iff, blockCauses_eq_nil_iff, operandsCauses_eq_nil_iff, mem_flatMap, and_assoc]
  constructor
  · intro fine
    exact ⟨fun b member => (fine b member).1, fun i ⟨b, member, here⟩ => (fine b member).2 i here⟩
  · intro ⟨closed, fine⟩ b member
    exact ⟨closed b member, fun i here => fine i ⟨b, member, here⟩⟩

/-- A function has no problem iff it is well formed. -/
theorem causes_eq_nil_iff {p : Program} {f : Func} : f.causes p = [] ↔ f.WellFormed p := by
  unfold causes
  by_cases blocks : f.blocks = []
  · rw [if_pos (by simpa using blocks)]
    exact ⟨nofun, fun h => absurd blocks h.blocks⟩
  · rw [if_neg (by simpa using blocks), append_eq_nil_iff, append_eq_nil_iff,
      map_eq_nil_iff, map_eq_nil_iff, repeats_eq_nil_iff, repeats_eq_nil_iff,
      blocksCauses_eq_nil_iff]
    constructor
    · intro ⟨⟨⟨labels, _⟩, once, apart⟩, closed, code⟩
      exact
        { blocks, labels, once, apart, closed
          given := fun i here => (code i here).1
          temps := fun i here => (code i here).2.1
          targets := fun i here => (code i here).2.2.1
          callees := fun i here => (code i here).2.2.2.1
          returns := fun i here => (code i here).2.2.2.2 }
    · intro h
      exact ⟨⟨⟨h.labels, by simp⟩, h.once, h.apart⟩, h.closed, fun i here =>
        ⟨h.given i here, h.temps i here, h.targets i here, h.callees i here, h.returns i here⟩⟩

end Func

theorem Program.problems_eq_nil {p : Program} (h : p.WellFormed) : p.problems = [] :=
  flatMap_eq_nil_iff.mpr fun f member => by rw [Func.causes_eq_nil_iff.mpr (h f member)]; rfl

/-- Checking a program finds nothing iff the program is well formed. -/
theorem Program.problems_eq_nil_iff_wellFormed (p : Program) : p.problems = [] ↔ p.WellFormed := by
  unfold problems WellFormed
  simp only [flatMap_eq_nil_iff, map_eq_nil_iff, Func.causes_eq_nil_iff]

end MiniPascal.Ir
