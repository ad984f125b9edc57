import MiniPascal.Proofs.Ir.Machine

/-!
# Steps and runs

A step is a jump, a return, or an instruction inside a block (`Move`). `ReachesWithin` is for runs that
never return from a certain depth of calls, and that at this depth jump to certain labels only.

A run is listed with the states that it passes, so that one can count among them. The machine is
deterministic: a program that ends passes no more states than are on its way to the end
(`Run.length_le`), so one with arbitrarily long runs does not end (`not_ends_of_runs`).
-/

namespace MiniPascal.Ir

open Meaning (Content)

/-! ## Kinds of steps -/

/-- What a step does: a jump to a label, a return, or the execution of an instruction inside a block. -/
inductive Move where
  | jump (label : String)
  | back (value : Option Val)
  | inner

/-- The label to which a move leads. -/
def Move.target? : Move → Option String
  | .jump label => some label
  | _ => none

/-- What the step of an instruction does. -/
def Instr.move? (p : Program) (τ : Temps) (i : Instr) : Option Move :=
  match i.op, i.args with
  | .jmp, [.label target] => some (.jump target)
  | .jnz, [cond, .label yes, .label no] => (p.word? τ cond).map fun w => .jump (if w ≠ 0 then yes else no)
  | .ret, [] => some (.back none)
  | .ret, [value] => (p.word? τ value).map fun w => .back (some (.word w))
  | _, _ => some .inner

namespace Machine

variable (m : Machine) (p : Program)

/-- The label to which the next step jumps. -/
def target? : Option String := (m.frame.code.head?.bind (Instr.move? p m.frame.temps)).bind Move.target?

variable {m p}

/-- An instruction inside a block does not jump. -/
theorem target?_inner (inner : i.op.isTerminator = false)
    (code : m.frame.code = i :: rest) : m.target? p = none := by
  obtain ⟨op, type, operandType, result, args, argTypes, align⟩ := i
  unfold target?
  rw [code]
  cases op <;> cases inner <;> rfl

/-- A return is no jump. -/
theorem target?_ret (ret : i.op = .ret) (code : m.frame.code = i :: rest) :
    m.target? p = none := by
  obtain ⟨op, type, operandType, result, args, argTypes, align⟩ := i
  cases ret
  unfold target?
  rw [code]
  cases args with
  | nil => rfl
  | cons value others =>
    cases others with
    | nil =>
      change ((p.word? m.frame.temps value).map _).bind Move.target? = none
      cases p.word? m.frame.temps value <;> rfl
    | cons => rfl

end Machine

/-! ## Runs that stay in their place -/

section Within

variable (p : Program) (fill : Nat → Content) (depth : Nat) (J : String → Prop)

/-- A step at some depth of calls or above it, which at the depth itself jumps to some labels only. -/
structure StepsWithin (m n : Machine) : Prop where
  step : Steps p fill m n
  deep : depth ≤ m.callers.length
  jumps : m.callers.length = depth → ∀ l, m.target? p = some l → J l

/-- The machine gets from one state to another by such steps. -/
def ReachesWithin : Machine → Machine → Prop := Relation.ReflTransGen (StepsWithin p fill depth J)

variable {p fill depth J} {m m₁ m₂ : Machine}

/-- A step that does not jump. -/
theorem ReachesWithin.single (step : Steps p fill m m₁) (enough : depth ≤ m.callers.length)
    (still : m.target? p = none) : ReachesWithin p fill depth J m m₁ :=
  Relation.ReflTransGen.single ⟨step, enough, fun _ l target => by rw [still] at target; cases target⟩

/-- A step that jumps. -/
theorem ReachesWithin.jump {l : String} (step : Steps p fill m m₁) (enough : depth ≤ m.callers.length)
    (target : m.target? p = some l) (allowed : J l) : ReachesWithin p fill depth J m m₁ :=
  Relation.ReflTransGen.single ⟨step, enough, fun _ l' target' => by
    cases target.symm.trans target'
    exact allowed⟩

theorem ReachesWithin.trans (h : ReachesWithin p fill depth J m m₁) (h' : ReachesWithin p fill depth J m₁ m₂) :
    ReachesWithin p fill depth J m m₂ := Relation.ReflTransGen.trans h h'

theorem ReachesWithin.mono {J' : String → Prop} (h : ReachesWithin p fill depth J m m₁)
    (imp : ∀ l, J l → J' l) : ReachesWithin p fill depth J' m m₁ :=
  Relation.ReflTransGen.mono (fun _ _ s => ⟨s.step, s.deep, fun same l target => imp l (s.jumps same l target)⟩) _ _ h

/-- Below the depth nothing happens at all. -/
theorem ReachesWithin.above {J' : String → Prop} (h : ReachesWithin p fill (depth + 1) J m m₁) :
    ReachesWithin p fill depth J' m m₁ :=
  Relation.ReflTransGen.mono (fun _ _ s => ⟨s.step, Nat.le_of_succ_le s.deep, fun same =>
    absurd s.deep (by rw [same]; exact Nat.not_succ_le_self depth)⟩) _ _ h

theorem ReachesWithin.reaches (h : ReachesWithin p fill depth J m m₁) : Reaches p fill m m₁ :=
  Relation.ReflTransGen.mono (fun _ _ s => s.step) _ _ h

end Within

/-! ## Runs -/

section Runs

variable (p : Program) (fill : Nat → Content)

/-- A run passes some states. The last state is not among them. -/
inductive Run : Machine → List Machine → Machine → Prop
  | nil : Run m [] m
  | cons : Steps p fill m m₁ → Run m₁ ms m' → Run m (m :: ms) m'

variable {p fill} {m m₁ m₂ : Machine} {ms ns : List Machine}

theorem Run.single (step : Steps p fill m m₁) : Run p fill m [m] m₁ := .cons step .nil

theorem Run.append (first : Run p fill m ms m₁) (second : Run p fill m₁ ns m₂) : Run p fill m (ms ++ ns) m₂ := by
  induction first with
  | nil => exact second
  | cons step _ ih => exact .cons step (ih second)

theorem ReachesWithin.run {depth : Nat} {J : String → Prop} (h : ReachesWithin p fill depth J m m₁) :
    ∃ ms, Run p fill m ms m₁ ∧ ∀ x ∈ ms, x.callers.length = depth → ∀ l, x.target? p = some l → J l := by
  induction h using Relation.ReflTransGen.head_induction_on with
  | refl => exact ⟨[], .nil, List.forall_mem_nil _⟩
  | head step _ ih =>
    obtain ⟨ms, run, jumps⟩ := ih
    exact ⟨_, .cons step.step run, List.forall_mem_cons.mpr ⟨step.jumps, jumps⟩⟩

theorem Reaches.run (h : Reaches p fill m m₁) : ∃ ms, Run p fill m ms m₁ := by
  induction h using Relation.ReflTransGen.head_induction_on with
  | refl => exact ⟨[], .nil⟩
  | head step _ ih =>
    obtain ⟨ms, run⟩ := ih
    exact ⟨_, .cons step run⟩

theorem Steps.det (h : Steps p fill m m₁) (h' : Steps p fill m m₂) : m₁ = m₂ := by
  cases h.symm.trans h'
  rfl

/-- No run goes on behind the end. -/
theorem Run.length_le (run : Run p fill m ms m₁)
    (ended : m₁.next? p fill = some (.halted result events)) (other : Run p fill m ns m₂) :
    ns.length ≤ ms.length := by
  induction run generalizing ns with
  | nil =>
    cases other with
    | nil => exact Nat.le_refl _
    | cons step => cases step.symm.trans ended
  | cons step _ ih =>
    cases other with
    | nil => exact Nat.zero_le _
    | cons step' rest =>
      cases step.det step'
      exact Nat.succ_le_succ (ih ended rest)

/-- A program does not end if it comes to a state from which there are runs of any length. -/
theorem not_ends_of_runs (boots : p.boot? input = some m) (comes : Reaches p fill m m₁)
    (long : ∀ n, ∃ ms m₂, n ≤ ms.length ∧ Run p fill m₁ ms m₂) (result : Option Val)
    (events : List Meaning.Event) : ¬ p.Ends fill input result events := by
  rintro ⟨m', last, boots', reached, ended⟩
  cases boots.symm.trans boots'
  obtain ⟨ms, run⟩ := Reaches.run reached
  obtain ⟨before, first⟩ := Reaches.run comes
  obtain ⟨ns, m₂, many, second⟩ := long (ms.length + 1)
  have bound := run.length_le ended (first.append second)
  rw [List.length_append] at bound
  omega

end Runs

end MiniPascal.Ir
