import MiniPascal.Proofs.Lower.Acceptance
import MiniPascal.Proofs.Meaning.Entry

/-!
# Lowering preserves meaning

A call is simulated by the code of the arguments, the way into the routine, its body and the way
out. With that everything the evaluator does is simulated, by induction on its fuel. So a program
whose evaluation ends has code that ends as well, with the result zero and the same events.
-/

open List

namespace MiniPascal.Meaning

open Ir (Value Instr Ty Line plain Temps Machine)
open Static (Header Outline)
open Lower

/-! ## Calls -/

theorem of_guard {P : Prop} [Decidable P] (h : (guard P : Option Unit) = some ()) : P := by
  unfold guard at h
  split at h
  · assumption
  · cases h

/-- A body leads to the code behind it, however it ends. -/
theorem Context.Comes.returns {C : Context W}
    (h : C.Comes ls ret none ls ends (rejoin ends ret ++ .label ret :: plain leave) a τ σ outcome σ')
    (there : .label ret :: plain leave <:+ C.func.lines) :
    ∃ τ', Agree a τ τ' ∧ C.Leads (fun _ => True)
      (ls ++ (rejoin ends ret ++ .label ret :: plain leave)) τ σ (plain leave) τ' σ' := by
  obtain ⟨τ', agree, leads⟩ := h
  refine ⟨τ', agree, ?_⟩
  cases outcome with
  | normal =>
    obtain ⟨rfl, leads⟩ := leads
    exact (leads.mono fun _ _ => trivial).trans (Context.leads_jump there trivial)
  | broke =>
    obtain ⟨l, impossible, -⟩ := leads
    cases impossible
  | exited => exact (leads _ there).mono fun _ _ => trivial

section Invoke

variable {W : World} {n : Nat} (sim : Simulates W n)

include sim

/-- A routine is entered, its body runs, and the caller goes on. -/
theorem Call.reaches_behind (K : Call W)
 (result : K.result = (result?.map Code.temp).getD .missing)
    (function : result?.isSome = true → K.header.result ≠ .void)
    (values : W.program.values? K.temps (vs.map Prod.fst) (vs.map Prod.snd) = some (K.args.map K.caller.passed))
    (executed : execute K.context.env n K.definition.body
      (K.store.enter W.fill K.header.slots (given K.header K.args)) = some (outcome, left)) :
    K.caller.Leads (fun _ => False) (.instr (Code.call K.header.name result? vs) :: K.post) K.temps K.store
      K.post (K.returned result? (left.locals K.header.name 0)) { left with locals := K.store.locals } := by
  obtain ⟨r, ls, ends, n', k', lowers, listed⟩ := K.code.blocks
  obtain ⟨tail, htail⟩ : ∃ tail, tail = rejoin ends (retLabel r) ++
    .label (retLabel r) :: plain (Code.leave K.header n') := ⟨_, rfl⟩
  have start : K.func.lines = .label "start" :: (plain (Code.enter K.header) ++ (ls ++ tail)) := by
    rw [htail]
    exact listed
  have inside : ls ++ tail <:+ K.func.lines := ⟨.label "start" :: plain (Code.enter K.header), by rw [start]; simp⟩
  obtain ⟨τ, ready, entered⟩ := Call.moves_enter (ls ++ tail) _ Call.ready_arguments
  rw [Call.entering_length] at entered
  have comes := sim.execute (C := K.context) ⟨Nat.le_refl _, ready.holds⟩ lowers executed tail inside
  rw [htail] at comes
  obtain ⟨τ', agree, leads⟩ := comes.returns
    (.trans ⟨ls ++ rejoin ends (retLabel r), by rw [htail]; simp⟩ inside)
  rw [← htail] at leads
  -- all but the call itself happens above the caller
  exact (Call.reaches_call result values start).trans (entered.above.trans (leads.above.trans
    (Call.reaches_leave (ready.holds.agree agree (Nat.le_refl _)) result function).above))

theorem simulates_invoke {C : Context W} {f : String} {sig : Static.Signature} {ts : List Tree}
    {vs : List (Value × Ty)} {a b : Nat} {is : List Instr} {result? : Option Nat} {τ : Temps}
    {σ σ' : Store} {result : Option Word} (stands : C.Stands a τ) (callable : C.layout.Callable f sig)
    (code : Emits C.layout (.args sig.params ts vs) a is b)
    (wanted : result? = none ∨ result? = some b ∧ sig.result ≠ .void)
    (h : invoke C.env (n + 1) f ts σ = some (result, σ')) :
    C.Runs a (is ++ [Code.call f result? vs]) τ σ σ' fun τ' =>
      ∀ m, result? = some m → ∃ w, result = some w ∧ W.program.word? τ' (Code.temp m) = some w := by
  obtain ⟨⟨header, body⟩, found, h⟩ := Option.bind_eq_some_iff.mp h
  obtain ⟨⟨args, σ₁⟩, evaluated, h⟩ := Option.bind_eq_some_iff.mp h
  obtain ⟨⟨⟩, fits, h⟩ := Option.bind_eq_some_iff.mp h
  obtain ⟨⟨outcome, left⟩, executed, h⟩ := Option.bind_eq_some_iff.mp h
  obtain ⟨⟨⟩, -, h⟩ := Option.bind_eq_some_iff.mp h
  cases h
  obtain ⟨F, rfl, rfl, named⟩ := Callee.exists_of_definition? found (of_guard fits)
  -- the declaration that the call was checked against agrees with the one that has the body
  obtain ⟨first, seen, rfl⟩ := Option.map_eq_some_iff.mp callable.2.1
  have name : first.name = f := by simpa using find?_some seen
  obtain ⟨params, void⟩ :=
    W.correct.agree first (C.known _ (mem_of_find?_eq_some seen)) F.header F.member
    (name.trans named.symm)
  have function : result?.isSome = true → F.header.result ≠ .void := by
    rcases wanted with rfl | ⟨-, returns⟩
    · nofun
    · exact fun _ isVoid => returns (void.mpr isVoid)
  rw [params] at code
  refine (sim.args stands code evaluated).append code.le fun τ₁ agree gives => ?_
  intro post
  have entered := Call.reaches_behind sim
    { F with
      caller := C, post, temps := τ₁, store := σ₁
      result := (result?.map Code.temp).getD .missing, args
      accepts := gives.accepts } rfl function (gives.values (stands.holds agree)) executed
  rw [← named]
  refine ⟨_, entered, ?_, fun m same => ?_⟩
  · rcases wanted with rfl | ⟨rfl, -⟩
    · exact .refl b τ₁
    · exact .set (Nat.le_refl b) _ _
  · subst same
    exact ⟨_, if_neg (function rfl), Context.word?_temp _⟩

end Invoke

/-! ## Programs -/

/-- Everything that is evaluated is simulated. -/
theorem simulates (W : World) (n : Nat) : Simulates W n := by
  induction n with
  | zero =>
    -- Without fuel nothing is evaluated.
    constructor
    case execute | executeAll | count | loop =>
      intros
      rename_i evaluated _ _
      cases evaluated
    all_goals
      intros
      rename_i evaluated
      cases evaluated
  | succ n sim =>
    exact
      { word := (simulates_word sim ·)
        args := (simulates_args sim ·)
        invoke := (simulates_invoke sim ·)
        target := (simulates_target sim ·)
        write := (simulates_write sim ·)
        read := (simulates_read sim ·)
        stepOne := (simulates_stepOne sim ·)
        stepBy := (simulates_stepBy sim ·)
        perform := (simulates_perform sim ·)
        execute := (simulates_execute sim ·)
        executeAll := (simulates_executeAll sim ·)
        count := (simulates_count sim ·)
        loop := (simulates_loop sim ·) }

theorem func?_main {o : Outline} {p : Ir.Program} {fs : List Ir.Func} {main : Ir.Func}
    {ds : List Definition} (routines : Forall₂ (RoutineCode o p.strings) ds fs) (name : main.name = "main") :
    (fs ++ [main]).find? (fun f => f.name == "main") = some main := by
  induction routines with
  | nil => simp [name]
  | cons code _ ih =>
    rw [cons_append, find?_cons_of_neg, ih]
    rw [code.name]
    intro same
    have lists := congrArg String.toList (eq_of_beq same)
    simp at lists

/-- The storage of global variables is zero at the start. -/
theorem mapM_globals (input : List Int) {gs : Vars} (fits : ∀ g ∈ gs, g.2.Fits) :
    (gs.map dataOf).mapM (fun g => (Ir.cellAt? g.size.toInt).map fun cells =>
      (g.name, (⟨cells, fun _ => 0⟩ : Ir.Region))) =
      some (gs.map (Context.globalRegion (.initial input))) := by
  induction gs with
  | nil => rfl
  | cons g gs ih =>
    obtain ⟨first, later⟩ := forall_mem_cons.mp fits
    have cells : Ir.cellAt? (dataOf g).size.toInt = some g.2.cells := Context.cellAt?_size first
    simp only [map_cons, mapM_cons, cells, Option.map_some, ih later, Option.bind_eq_bind, Option.bind_some]
    rfl

/-- The main body, in its function. -/
def World.body (W : World) (main : Ir.Func) (labels : (main.lines.filterMap Line.label?).Nodup) : Context W where
  seen := W.outline.headers
  slots := []
  func := main
  below := []
  callers := []
  known _ known := known
  distinct := nodup_nil
  fits := nofun
  labels := labels

/-- A program starts in front of the code of its main body, behind which it returns. -/
theorem World.boots (W : World) : ∃ main labels r ls ends n' k',
    Lowers (W.body main labels).layout W.program.strings (retLabel r) none
      (.stmt W.outline.main) 0 (r + 1) ls ends n' k' ∧
    main.lines = .label "start" :: (ls ++ (rejoin ends (retLabel r) ++
      .label (retLabel r) :: plain [{ op := .ret, args := [.const 0] }])) ∧
    ∀ input, W.program.boot? input = some ((W.body main labels).machine (ls ++ (rejoin ends (retLabel r) ++
        .label (retLabel r) :: plain [{ op := .ret, args := [.const 0] }]))
      (fun _ => none) (.initial input)) := by
  obtain ⟨fs, main, funcs, routines, code⟩ := W.compiled.funcs
  obtain ⟨r, ls, ends, n', k', lowers, listed⟩ := code.blocks
  obtain ⟨b, first, heads⟩ := Call.first_block listed
  refine ⟨main, code.blocks.labels_nodup, r, ls, ends, n', k', lowers, listed, fun input => ?_⟩
  have found : W.program.func? "main" = some main := by
    rw [Ir.Program.func?, funcs, func?_main routines code.name]
  simp only [Ir.Program.boot?, found, first, W.compiled.globals, mapM_globals input W.fits,
    Option.bind_eq_bind, Option.bind_some, heads]
  rfl

/-- The code of a correct program ends with the events that its evaluation gives. -/
theorem ends_of_compiled {o : Outline}
    (compiled : Compiled o p) (correct : o.Correct multi) (written : o.Written)
    {fill : Nat → Content}
    (fits : ∀ g ∈ o.globals, g.2.Fits)
    (executed : execute { outline := o, slots := [], fill } fuel o.main (.initial input) = some (outcome, σ)) :
    p.Ends fill input (some (.word 0)) σ.events := by
  let W : World := { outline := o, program := p, fill, multi, compiled, correct, written, fits }
  obtain ⟨main, labels, r, ls, ends, n', k', lowers, start, boots⟩ := W.boots
  obtain ⟨tail, htail⟩ : ∃ tail : List Line, tail = rejoin ends (retLabel r) ++
    .label (retLabel r) :: plain [{ op := .ret, args := [.const 0] }] := ⟨_, rfl⟩
  rw [← htail] at start boots
  have inside : ls ++ tail <:+ (W.body main labels).func.lines := ⟨[.label "start"], start.symm⟩
  have comes := (simulates W fuel).execute (τ := fun _ => none)
    ⟨Nat.le_refl _, fun j v none => by cases none⟩ lowers executed tail inside
  rw [htail] at comes
  obtain ⟨τ', -, leads⟩ := comes.returns (.trans ⟨ls ++ rejoin ends (retLabel r), by rw [htail]; simp⟩ inside)
  rw [← htail] at leads
  exact ⟨_, _, boots input, leads.reaches, rfl⟩

/-- Lowering preserves meaning. Where the evaluation of a program that was read ends, its code ends
with the result zero and the same events. -/
theorem lower_preserves_events {on : Switches Feature} {source : String} {t : Tree} {c : Settings}
    {p : Ir.Program} (read : Tree.ofSource on source = .ok t)
    (ok : (lower c t).code = .ok p) {fill : Nat → Content} {fuel : Nat}
    {input : List Int} {events : List Event} (run : run? fill fuel t input = some events) :
    p.Ends fill input (some (.word 0)) events := by
  have isProgram := Tree.isProgram_of_ofSource read
  obtain ⟨o, outline, correct, compiled, -⟩ := compiled_of_ok isProgram ok
  rw [run?, outline, Option.bind_eq_bind, Option.bind_some] at run
  obtain ⟨⟨⟩, fits, run⟩ := Option.bind_eq_some_iff.mp run
  obtain ⟨⟨outcome, σ⟩, executed, run⟩ := Option.bind_eq_some_iff.mp run
  obtain ⟨⟨⟩, -, run⟩ := Option.bind_eq_some_iff.mp run
  cases run
  exact ends_of_compiled compiled correct (Static.written_of_isProgram isProgram outline) (of_guard fits) executed

theorem lower_preserves_events_sample : ∃ t p, Tree.ofSource Feature.strict sample = .ok t ∧
    (lower {} t).code = .ok p ∧
    run? (fun k _ => k) 40 t [2] = some [.scan "%d" (some 2), .print "%d" [.word 2], .print "\n" []] ∧
    p.Ends (fun k _ => k) [2] (some (.word 0)) [.scan "%d" (some 2), .print "%d" [.word 2], .print "\n" []] := by
  obtain ⟨t, p, read, ok, -⟩ := sample_compiles
  have evaluated : (Tree.ofSource Feature.strict sample).toOption.bind (fun t =>
      run? (fun k _ => k) 40 t [2]) =
      some [.scan "%d" (some 2), .print "%d" [.word 2], .print "\n" []] := by
    decide +kernel
  rw [read] at evaluated
  exact ⟨t, p, read, ok, evaluated, lower_preserves_events read ok evaluated⟩

end MiniPascal.Meaning
