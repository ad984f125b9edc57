import MiniPascal.Proofs.Meaning.Steps

/-!
# Simulation of straight-line code

The code of an expression runs to the value that the evaluator gives it, and likewise for arguments,
targets and statements without control flow. The proofs are by induction on the fuel: `Simulates W n`
says that everything that is evaluated with fuel `n` is simulated, and the theorems of this module go
from there to fuel `n + 1`, one function of the evaluator at a time.
-/

namespace MiniPascal.Meaning

open Ir (Value Instr Ty Line plain Temps Val)
open Lower Context Option

/-! ## Names -/

namespace Context

variable {W : World} {C : Context W}

theorem storage?_of_holds (h : C.layout.Holds x type) :
    C.env.constant? x = none ∧ ∃ place, C.env.storage? x = some (place, type) := by
  obtain ⟨noConstant, typed⟩ := h
  have noConstant : C.env.constant? x = none := noConstant
  have typed : (C.slots.lookup x).or (W.outline.globals.lookup x) = some type := typed
  refine ⟨noConstant, ?_⟩
  rw [Env.storage?_eq _ noConstant]
  cases found : C.slots.lookup x with
  | some type' =>
    rw [found, some_or] at typed
    cases typed
    exact ⟨.own x, by rw [show C.env.slots.lookup x = _ from found]; rfl⟩
  | none =>
    rw [found, none_or] at typed
    exact ⟨.global x, by
      rw [show C.env.slots.lookup x = _ from found, show C.env.outline.globals.lookup x = _ from typed]; rfl⟩

theorem storage?_of_free (h : C.layout.Free x) : C.env.constant? x = none ∧ C.env.storage? x = none := by
  obtain ⟨noConstant, untyped⟩ := h
  have noConstant : C.env.constant? x = none := noConstant
  obtain ⟨noSlot, noGlobal⟩ := or_eq_none_iff.mp untyped
  refine ⟨noConstant, ?_⟩
  rw [Env.storage?_eq _ noConstant, show C.env.slots.lookup x = _ from noSlot,
    show C.env.outline.globals.lookup x = _ from noGlobal]
  rfl

theorem below_of_aims
    (h : Aims C.layout t address a is b) (taken : C.slots.length ≤ a) : Below b address := by
  cases h with
  | var => exact (below_address _).mono taken
  | element _ index => exact .temp (Nat.lt_succ_self _)

/-! ## What is simulated -/

/-- An argument in the code stands for one of the evaluator. -/
inductive Gives (C : Context W) (τ : Temps) : List VarType → List (Value × Ty) → List Arg → Prop
  | nil : Gives C τ [] [] []
  | word :
    param.isArray = false → W.program.word? τ v = some w → Gives C τ params vs args →
    Gives C τ (param :: params) ((v, .word) :: vs) (.word w :: args)
  | array :
    param.isArray = true → C.env.storage? x = some (place, type) → type.size = param.size → Gives C τ params vs args →
    Gives C τ (param :: params) ((C.layout.address x, .address) :: vs) (.array place :: args)

/-- Where the code `ls` of a statement leads when the statement ends in a certain way: behind it, behind
the enclosing loop, or to the end of the routine. Other jumps are to labels in `inner`. -/
def Comes (C : Context W) (inner : List Line) (ret : String) (brk : Option String) (ls : List Line) (ends : Bool)
    (post : List Line) (a : Nat) (τ : Temps) (σ : Store) (outcome : Outcome) (σ' : Store) : Prop :=
  ∃ τ', Agree a τ τ' ∧
    match outcome with
    | .normal => ends = false ∧ C.Leads (.label · ∈ inner) (ls ++ post) τ σ post τ' σ'
    | .broke => ∃ l, brk = some l ∧ ∀ ahead, .label l :: ahead <:+ C.func.lines →
      C.Leads (fun l' => .label l' ∈ inner ∨ l' = l) (ls ++ post) τ σ ahead τ' σ'
    | .exited => ∀ ahead, .label ret :: ahead <:+ C.func.lines →
      C.Leads (fun l' => .label l' ∈ inner ∨ l' = ret) (ls ++ post) τ σ ahead τ' σ'

end Context

/-- The lines of a counting loop behind the label of its condition. -/
def countTail (k n m : Nat) (address last : Value) (down : Bool) (body : List Line) (ends : Bool) : List Line :=
  plain [Code.load n address, Code.compute (if down then .cge else .cle) .word (n + 1) (Code.temp n) last,
    Code.branch (Code.temp (n + 1)) (forBody k) (forAfter k)] ++
  .label (forBody k) :: (body ++ Code.again down ends m address (forCond k) ++
    [.label (forAfter k)])

/-- The lines of a loop behind the label of its condition. -/
def loopTail (k : Nat) (cond : List Instr) (v : Value) (body : List Line) (ends : Bool) : List Line :=
  plain (cond ++ [Code.branch v (whileBody k) (whileAfter k)]) ++
  .label (whileBody k) ::
    (body ++ rejoin ends (whileCond k) ++ [.label (whileAfter k)])

/-- What is evaluated with some fuel is simulated. -/
structure Simulates (W : World) (n : Nat) : Prop where
  word {C : Context W} : C.Stands a τ → Emits C.layout (.word t v) a is b →
    word C.env n t σ = some (w, σ') → C.Runs a is τ σ σ' fun τ' => W.program.word? τ' v = some w
  args {C : Context W} : C.Stands a τ → Emits C.layout (.args params ts vs) a is b →
    arguments C.env n params ts σ = some (xs, σ') →
    C.Runs a is τ σ σ' fun τ' => C.Gives τ' params vs xs
  invoke {C : Context W} : C.Stands a τ → C.layout.Callable f sig →
    Emits C.layout (.args sig.params ts vs) a is b →
    (result? = none ∨ result? = some b ∧ sig.result ≠ .void) →
    invoke C.env n f ts σ = some (result, σ') →
    C.Runs a (is ++ [Code.call f result? vs]) τ σ σ' fun τ' => ∀ m, result? = some m →
      ∃ w, result = some w ∧ W.program.word? τ' (Code.temp m) = some w
  target {C : Context W} : C.Stands a τ → Aims C.layout t address a is b →
    target C.env n t σ = some ((place, k), σ') →
    C.Runs a is τ σ σ' fun τ' => C.Points τ' address place k
  write {C : Context W} : C.Stands a τ → Writes C.layout W.program.strings ts a is b →
    write C.env n ts σ = some σ' → C.Runs a is τ σ σ' fun _ => True
  read {C : Context W} : C.Stands a τ → Scans C.layout W.program.strings ts a is b →
    read C.env n ts σ = some σ' → C.Runs a is τ σ σ' fun _ => True
  stepOne {C : Context W} : C.Stands a τ → Aims C.layout t address a is b →
    step C.env down n [t] σ = some σ' →
    C.Runs a (is ++ Code.bump (if down then .sub else .add) b address (.const 1)) τ σ σ'
      fun _ => True
  stepBy {C : Context W} : C.Stands a τ → Emits C.layout (.word amount v) a is b →
    Aims C.layout t address b js c → step C.env down n [t, amount] σ = some σ' →
    C.Runs a (is ++ js ++ Code.bump (if down then .sub else .add) c address v) τ σ σ' fun _ => True
  perform {C : Context W} : C.Stands a τ → Invokes C.layout W.program.strings f ts a is b →
    perform C.env n f ts σ = some σ' → C.Runs a is τ σ σ' fun _ => True
  execute {C : Context W} : C.Stands a τ →
    C.Lowers ret brk (.stmt t) a k ls ends b k' →
    execute C.env n t σ = some (outcome, σ') → ∀ post, ls ++ post <:+ C.func.lines →
    C.Comes ls ret brk ls ends post a τ σ outcome σ'
  executeAll {C : Context W} : C.Stands a τ →
    C.Lowers ret brk (.stmts ts) a k ls ends b k' →
    executeAll C.env n ts σ = some (outcome, σ') → ∀ post, ls ++ post <:+ C.func.lines →
    C.Comes ls ret brk ls ends post a τ σ outcome σ'
  count {C : Context W} : C.Stands a τ → C.env.storage? x = some (place, .integer) → Below a v →
    W.program.word? τ v = some last →
    C.Lowers ret (some (forAfter k)) (.stmt body)
      (a + 2) (k + 3) ls ends b k' → count C.env place last down body n σ = some (outcome, σ') →
    ∀ post, .label (forCond k) ::
      (countTail k a b (C.layout.address x) v down ls ends ++ post) <:+ C.func.lines →
    C.Comes (.label (forCond k) :: countTail k a b (C.layout.address x) v down ls ends)
      ret none (countTail k a b (C.layout.address x) v down ls ends) false post a τ σ outcome σ'
  loop {C : Context W} : C.Stands a τ → Emits C.layout (.word t v) a is b →
    C.Lowers ret (some (whileAfter k)) (.stmt body) b
      (k + 3) ls ends c k' → loop C.env t body n σ = some (outcome, σ') →
    ∀ post,
      .label (whileCond k) :: (loopTail k is v ls ends ++ post) <:+ C.func.lines →
    C.Comes (.label (whileCond k) :: loopTail k is v ls ends) ret none
      (loopTail k is v ls ends) false post a τ σ outcome σ'

section Straight

variable {W : World} {n : Nat} (sim : Simulates W n) {C : Context W} {a b : Nat} {is : List Instr}
  {τ : Temps} {σ σ' : Store} (stands : C.Stands a τ)

include sim stands

variable {ts : List Tree} {v address : Value} {t : Tree}

/-- The code of a call for its value. -/
theorem simulates_value {sig : Static.Signature} {vs : List (Value × Ty)}
    (callable : C.layout.Callable f sig) (function : sig.result ≠ .void)
    (args : Emits C.layout (.args sig.params ts vs) a is b) (h : (do
      let (result, σ) ← invoke C.env n f ts σ
      return (← result, σ)) = some (w, σ')) :
    C.Runs a (is ++ [Code.call f (some b) vs]) τ σ σ'
      fun τ' => W.program.word? τ' (Code.temp b) = some w := by
  obtain ⟨⟨result, σ₁⟩, invoked, h⟩ := bind_eq_some_iff.mp h
  obtain ⟨w', same, h⟩ := bind_eq_some_iff.mp h
  cases h
  refine (sim.invoke stands callable args (.inr ⟨rfl, function⟩) invoked).mono fun τ' _ returned => ?_
  obtain ⟨w, same', value⟩ := returned b rfl
  cases same.symm.trans same'
  exact value

/-- The code of the address of an element. -/
theorem simulates_element {lower : Int64}
 (holds : C.layout.Holds x (.array lower upper .integer))
    (code : Emits C.layout (.word index v) a is b) (evaluated : word C.env n index σ = some (i, σ'))
    (found : C.env.element? x i = some (place, k)) :
    C.Runs a (is ++ Code.addressing b (C.layout.address x) v lower) τ σ σ'
      fun τ' => C.Points τ' (Code.temp (b + 3)) place k := by
  obtain ⟨-, place', stored⟩ := storage?_of_holds holds
  unfold Env.element? at found
  rw [stored] at found
  obtain ⟨k', index, same⟩ := map_eq_some_iff.mp found
  cases same
  have bound := code.le
  refine (sim.word stands code evaluated).append bound fun τ₁ agree value => ?_
  exact runs_addressing (stands.agree agree (by omega)) stored index value

theorem simulates_word (code : Emits C.layout (.word t v) a is b)
    (h : word C.env (n + 1) t σ = some (w, σ')) : C.Runs a is τ σ σ' fun τ' => W.program.word? τ' v = some w := by
  cases code with
  | number =>
    cases h
    exact .nil (word?_const _ _)
  | constant found =>
    rw [word, show C.env.constant? _ = _ from found] at h
    cases h
    exact .nil (word?_const _ _)
  | var holds =>
    obtain ⟨noConstant, place, stored⟩ := storage?_of_holds holds
    rw [word, noConstant, stored] at h
    cases h
    exact runs_load (points_of_integer stands.held stored)
  | @bareCall x sig _ _ free callable noParams function =>
    obtain ⟨noConstant, unbound⟩ := storage?_of_free free
    rw [word, noConstant, unbound] at h
    have noArgs : Emits C.layout (.args sig.params [] []) a [] a := by
      rw [noParams]
      exact .noArgs
    exact simulates_value sim stands callable function noArgs h
  | @element x upper index v _ is m _ lower holds code =>
    obtain ⟨⟨i, σ₁⟩, evaluated, h⟩ := bind_eq_some_iff.mp h
    obtain ⟨⟨place, k⟩, found, h⟩ := bind_eq_some_iff.mp h
    cases h
    have bound := code.le
    exact (simulates_element sim stands holds code evaluated found).append (by omega)
      fun τ₁ _ points => runs_load points
  | binary known left right =>
    obtain ⟨⟨x, σ₁⟩, first, h⟩ := bind_eq_some_iff.mp h
    obtain ⟨⟨y, σ₂⟩, second, h⟩ := bind_eq_some_iff.mp h
    obtain ⟨w', operated, h⟩ := bind_eq_some_iff.mp h
    cases h
    have bound := left.le
    have bound' := right.le
    have both := (sim.word stands left first).append bound fun τ₁ agree₁ hx =>
      (sim.word (stands.agree agree₁ (by omega)) right second).mono fun τ₂ agree₂ hy =>
        (⟨by rw [(below_of_emits left).word agree₂]; exact hx, hy⟩ : W.program.word? τ₂ _ = some x ∧ _)
    exact both.append (by omega) fun τ₂ _ values =>
      runs_compute known values.1 values.2 (onWords?_operation known operated)
  | call callable function args => exact simulates_value sim stands callable function args h

theorem simulates_args
    (code : Emits C.layout (.args params ts vs) a is b) (h : arguments C.env (n + 1) params ts σ = some (args, σ')) :
    C.Runs a is τ σ σ' fun τ' => C.Gives τ' params vs args := by
  cases code with
  | noArgs =>
    cases h
    exact .nil .nil
  | wordArg scalar first rest =>
    rw [arguments, if_neg (by simp [scalar])] at h
    obtain ⟨⟨w, σ₁⟩, evaluated, h⟩ := bind_eq_some_iff.mp h
    obtain ⟨⟨args, σ₂⟩, later, h⟩ := bind_eq_some_iff.mp h
    cases h
    have bound := first.le
    refine (sim.word stands first evaluated).append bound fun τ₁ agree₁ value => ?_
    refine (sim.args (stands.agree agree₁ (by omega)) rest later).mono fun τ₂ agree₂ gives => ?_
    exact .word scalar (by rw [(below_of_emits first).word agree₂]; exact value) gives
  | arrayArg isArray holds array same rest =>
    obtain ⟨-, place, stored⟩ := storage?_of_holds holds
    rw [arguments, if_pos isArray] at h
    obtain ⟨⟨place', type'⟩, found, h⟩ := bind_eq_some_iff.mp h
    obtain ⟨⟨args, σ₂⟩, later, h⟩ := bind_eq_some_iff.mp h
    cases h
    rw [Env.array?, stored, filter_some, if_pos array] at found
    cases found
    exact (sim.args stands rest later).mono fun τ' _ gives => .array isArray stored same gives

theorem simulates_target (code : Aims C.layout t address a is b)
    (h : target C.env (n + 1) t σ = some ((place, k), σ')) :
    C.Runs a is τ σ σ' fun τ' => C.Points τ' address place k := by
  cases code with
  | var holds =>
    obtain ⟨-, place', stored⟩ := storage?_of_holds holds
    rw [target, Env.integer?, stored] at h
    cases h
    exact .nil (points_of_integer stands.held stored)
  | element holds code =>
    obtain ⟨⟨i, σ₁⟩, evaluated, h⟩ := bind_eq_some_iff.mp h
    obtain ⟨cell, found, h⟩ := bind_eq_some_iff.mp h
    cases h
    exact simulates_element sim stands holds code evaluated found

theorem simulates_write (code : Writes C.layout W.program.strings ts a is b)
    (h : write C.env (n + 1) ts σ = some σ') : C.Runs a is τ σ σ' fun _ => True := by
  cases code with
  | nil =>
    cases h
    exact .nil trivial
  | text literal format rest =>
    rw [write] at h
    exact (runs_print_datum format (operand_literal literal _) rfl).cons (Nat.le_refl a)
      fun τ₁ agree _ => sim.write (stands.agree agree (by omega)) rest h
  | @word t v _ is m ts js _ format first literal rest =>
    have notText : ∀ tok value, t ≠ .text tok value := by
      rintro tok value rfl
      cases first
    rw [write] at h
    · obtain ⟨⟨w, σ₁⟩, evaluated, h⟩ := bind_eq_some_iff.mp h
      have bound := first.le
      refine (sim.word stands first evaluated).append bound fun τ₁ agree₁ value => ?_
      have printed : C.Runs m [Code.print format (some (v, .word))] τ₁ σ₁ _ _ :=
        runs_print_datum literal (operand_of_word value) rfl
      refine printed.cons (Nat.le_refl m) fun τ₂ agree₂ _ => ?_
      exact sim.write ((stands.agree agree₁ bound).agree agree₂ (Nat.le_refl m)) rest h
    · exact notText

theorem simulates_read (code : Scans C.layout W.program.strings ts a is b)
    (h : read C.env (n + 1) ts σ = some σ') : C.Runs a is τ σ σ' fun _ => True := by
  cases code with
  | nil =>
    cases h
    exact .nil trivial
  | @cons t address _ is m ts js _ format aims literal rest =>
    obtain ⟨⟨⟨place, k⟩, σ₁⟩, aimed, h⟩ := bind_eq_some_iff.mp h
    have bound := aims.le
    refine (sim.target stands aims aimed).append bound fun τ₁ agree₁ points => ?_
    have scanned : C.Runs m [Code.scan format address] τ₁ σ₁ _ _ := runs_scan literal points
    refine scanned.cons (Nat.le_refl m) fun τ₂ agree₂ _ => ?_
    exact sim.read ((stands.agree agree₁ bound).agree agree₂ (Nat.le_refl m)) rest h

omit sim stands in
theorem operation?_step (down : Bool) :
    operation? (if down then .minus else .plus) = some (if down then .sub else .add) := by
  cases down <;> rfl

theorem simulates_stepOne (code : Aims C.layout t address a is b)
    (h : step C.env down (n + 1) [t] σ = some σ') :
    C.Runs a (is ++ Code.bump (if down then .sub else .add) b address (.const 1)) τ σ σ' fun _ => True := by
  obtain ⟨⟨⟨place, k⟩, σ₁⟩, aimed, h⟩ := bind_eq_some_iff.mp h
  cases h
  refine (sim.target stands code aimed).append (code.le) fun τ₁ _ points => ?_
  exact runs_bump (operation?_step down) points (below_of_aims code stands.taken)
    (word?_const _ 1) (.const 1) (onWords?_stepped down _ 1)

theorem simulates_stepBy
    (code : Emits C.layout (.word amount v) a is b) (aims : Aims C.layout t address b js c)
    (h : step C.env down (n + 1) [t, amount] σ = some σ') :
    C.Runs a (is ++ js ++ Code.bump (if down then .sub else .add) c address v) τ σ σ' fun _ => True := by
  obtain ⟨⟨w, σ₁⟩, evaluated, h⟩ := bind_eq_some_iff.mp h
  obtain ⟨⟨⟨place, k⟩, σ₂⟩, aimed, h⟩ := bind_eq_some_iff.mp h
  cases h
  have bound := code.le
  have bound' := aims.le
  have both := (sim.word stands code evaluated).append bound fun τ₁ agree₁ value =>
    (sim.target (stands.agree agree₁ (by omega)) aims aimed).mono fun τ₂ agree₂ points =>
      (⟨by rw [(below_of_emits code).word agree₂]; exact value, points⟩ : W.program.word? τ₂ v = some w ∧ _)
  exact both.append (by omega) fun τ₂ _ operands =>
    runs_bump (operation?_step down) operands.2 (below_of_aims aims (by have := stands.taken; omega)) operands.1
      ((below_of_emits code).mono bound') (onWords?_stepped down _ w)

omit sim stands in
theorem stepOp?_cases {b : Builtin} (h : stepOp? b = some op) :
    (b = .dec ∧ op = .sub) ∨ (b = .inc ∧ op = .add) := by
  cases b <;> cases h <;> simp

theorem simulates_perform (code : Invokes C.layout W.program.strings f ts a is b)
    (h : perform C.env (n + 1) f ts σ = some σ') : C.Runs a is τ σ σ' fun _ => True := by
  rw [perform] at h
  cases code with
  | procedure callable _ args =>
    rw [callable.1] at h
    obtain ⟨⟨result, σ₁⟩, invoked, rfl⟩ := map_eq_some_iff.mp h
    exact (sim.invoke stands callable args (.inl rfl) invoked).mono fun _ _ _ => trivial
  | function callable function args =>
    rw [callable.1] at h
    obtain ⟨⟨result, σ₁⟩, invoked, rfl⟩ := map_eq_some_iff.mp h
    exact (sim.invoke stands callable args (.inr ⟨rfl, function⟩) invoked).mono fun _ _ _ => trivial
  | write known code =>
    rw [known] at h
    exact sim.write stands code h
  | writeln known code newline =>
    rw [known] at h
    obtain ⟨σ₁, written, rfl⟩ := map_eq_some_iff.mp h
    exact (sim.write stands code written).append (Nat.le_refl a) fun τ₁ _ _ =>
      runs_print newline rfl rfl
  | readln known code =>
    rw [known] at h
    exact sim.read stands code h
  | @step b op target address _ _ _ known steps aims =>
    rw [known] at h
    rcases stepOp?_cases steps with ⟨rfl, rfl⟩ | ⟨rfl, rfl⟩
    · have stepped := sim.stepOne stands aims h
      exact stepped
    · have stepped := sim.stepOne stands aims h
      exact stepped
  | @stepBy b op amount v _ _ _ target address _ _ known steps code aims =>
    rw [known] at h
    rcases stepOp?_cases steps with ⟨rfl, rfl⟩ | ⟨rfl, rfl⟩
    · have stepped := sim.stepBy stands code aims h
      exact stepped
    · have stepped := sim.stepBy stands code aims h
      exact stepped

omit sim stands in
theorem array?_of_aims (h : Aims C.layout t address a is b) : C.env.array? t = none := by
  cases h with
  | var holds =>
    obtain ⟨-, place, stored⟩ := storage?_of_holds holds
    rw [Env.array?, stored]
    rfl
  | element => rfl

omit sim stands in
theorem array?_of_holds (holds : C.layout.Holds x type)
    (array : type.isArray = true) :
    ∃ place, C.env.storage? x = some (place, type) ∧ C.env.array? (.name tok x) = some (place, type) := by
  obtain ⟨-, place, stored⟩ := storage?_of_holds holds
  exact ⟨place, stored, by rw [Env.array?, stored, filter_some, if_pos array]⟩

/-- A statement without control flow ends normally. -/
theorem simulates_straight (code : Straight C.layout W.program.strings t a is b)
    (h : execute C.env (n + 1) t σ = some (outcome, σ')) : outcome = .normal ∧ C.Runs a is τ σ σ' fun _ => True := by
  cases code with
  | @value tok x v _ _ _ code =>
    rw [execute] at h
    split at h
    · obtain ⟨⟨w, σ₁⟩, evaluated, h⟩ := map_eq_some_iff.mp h
      cases h
      exact ⟨rfl, (sim.word stands code evaluated).mono fun _ _ _ => trivial⟩
    · next unbound =>
      obtain ⟨σ₁, performed, h⟩ := map_eq_some_iff.mp h
      cases h
      cases code with
      | constant found => exact absurd (.inl (by rw [show C.env.constant? x = _ from found]; rfl)) unbound
      | var holds =>
        obtain ⟨-, place, stored⟩ := storage?_of_holds holds
        exact absurd (.inr (by rw [stored]; rfl)) unbound
      | @bareCall _ sig _ _ free callable noParams function =>
        have noArgs : Emits C.layout (.args sig.params [] []) a [] a := by
          rw [noParams]
          exact .noArgs
        exact ⟨rfl, sim.perform stands (.function callable function noArgs) performed⟩
  | @bareCall x _ _ _ tok free code =>
    obtain ⟨noConstant, unbound⟩ := storage?_of_free free
    rw [execute, noConstant, unbound, if_neg (by simp)] at h
    obtain ⟨σ₁, performed, h⟩ := map_eq_some_iff.mp h
    cases h
    exact ⟨rfl, sim.perform stands code performed⟩
  | element code =>
    rw [execute] at h
    obtain ⟨⟨w, σ₁⟩, evaluated, h⟩ := map_eq_some_iff.mp h
    cases h
    exact ⟨rfl, (sim.word stands code evaluated).mono fun _ _ _ => trivial⟩
  | call code =>
    rw [execute] at h
    obtain ⟨σ₁, performed, h⟩ := map_eq_some_iff.mp h
    cases h
    exact ⟨rfl, sim.perform stands code performed⟩
  | assign code aims =>
    rw [execute, array?_of_aims aims] at h
    obtain ⟨⟨w, σ₁⟩, evaluated, h⟩ := bind_eq_some_iff.mp h
    obtain ⟨⟨⟨place, k⟩, σ₂⟩, aimed, h⟩ := bind_eq_some_iff.mp h
    cases h
    have bound := code.le
    have both := (sim.word stands code evaluated).append bound fun τ₁ agree₁ value =>
      (sim.target (stands.agree agree₁ (by omega)) aims aimed).mono fun τ₂ agree₂ points =>
        (⟨by rw [(below_of_emits code).word agree₂]; exact value, points⟩ : W.program.word? τ₂ _ = some w ∧ _)
    exact ⟨rfl, both.append (Nat.le_refl a) fun τ₂ _ operands => runs_store operands.2 operands.1 trivial⟩
  | @assignArray x type y type' tok tok₁ tok₂ _ holds array holds' array' same =>
    obtain ⟨place, stored, found⟩ := array?_of_holds holds array
    obtain ⟨place', stored', found'⟩ := array?_of_holds holds' array'
    rw [execute, found] at h
    obtain ⟨source, named, h⟩ := bind_eq_some_iff.mp h
    cases found'.symm.trans named
    cases h
    exact ⟨rfl, runs_copy stands.held stored stored' same⟩

end Straight

end MiniPascal.Meaning
