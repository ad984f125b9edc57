import MiniPascal.Backend
import MiniPascal.Proofs.Llvm.Module
import MiniPascal.Proofs.Lower.Linkage

/-!
# Types of lowered code

The code of a correct program is well typed, so a well-typed module is built from it.
-/

open List

namespace MiniPascal.Lower

open Ir (Value Instr Ty Line plain)
open Static (Signature Header Outline)

/-! ## Operands -/

section Operands

variable {o : Outline} {p : Ir.Program} {f : Ir.Func}

theorem usedAs_literal (h : Literal p.strings text v) :
    v.UsedAs p f .address := by
  have labels {name : String} (same : v = .global name) := h.mem_labels same
  obtain ⟨label, -, rfl⟩ := h
  exact .data (fun _ => mem_append_right _ (labels rfl)) rfl

variable (single : ∀ {key type type'}, f.HasType key type → f.HasType key type' → type = type')

include single

theorem usedAs_temp (h : f.Assigns t type) :
    Value.UsedAs p f (.temp t) type := by
  obtain ⟨i, inside, result, rfl⟩ := h
  exact .temp fun given has => by rw [single has (.instr inside result)]

theorem usedAs_word (h : IsWord f.Assigns v) : v.UsedAs p f .word := by
  cases h with
  | const => exact .const (by decide)
  | temp assigned => exact usedAs_temp single assigned

variable {seen : List Header} {slots : Vars} (scene : Scene o f seen slots)

include scene

theorem usedAs_slot (here : slots[i]? = some v) :
    (Code.slot v.1 i).UsedAs p f .address :=
  usedAs_temp single ⟨_, scene.allocated i v here, rfl, rfl⟩

variable (compiled : Compiled o p)

include compiled

theorem usedAs_address (holds : (layout o seen slots).Holds x type) :
    ((layout o seen slots).address x).UsedAs p f .address := by
  rcases Scene.address_cases o seen holds with ⟨i, slot, here⟩ | ⟨global, -⟩
  · rw [slot]
    exact usedAs_slot single scene here
  · have declared := address_global compiled holds global
    rw [global]
    exact .data (fun _ => mem_append_left _ declared) rfl

theorem usedAs_cell (cell : IsCell (layout o seen slots) f.Assigns a) :
    a.UsedAs p f .address := by
  cases cell with
  | var holds => exact usedAs_address single scene compiled holds
  | element assigned => exact usedAs_temp single assigned

theorem usedAs_passed
    (passed : Forall₂ (Passed (layout o seen slots) f.Assigns) params vs) :
    Forall₂ (Value.UsedAs p f) (vs.map Prod.fst) (vs.map Prod.snd) := by
  induction passed with
  | nil => exact .nil
  | cons first _ ih =>
    refine .cons ?_ ih
    cases first with
    | word _ word => exact usedAs_word single word
    | array _ holds => exact usedAs_address single scene compiled holds

end Operands

/-! ## Instructions -/

/-- The operation of an operator computes a number or compares two. -/
theorem operation?_cases (h : operation? kind = some op) :
    op.isArithmetic = true ∨ op.isComparison = true := by
  unfold operation? at h
  split at h <;> cases h <;> decide

section Instructions

variable {o : Outline} {p : Ir.Program} {multi : Bool} {f : Ir.Func} {seen : List Header}
  {slots : Vars}
  (single : ∀ {key type type'}, f.HasType key type → f.HasType key type' → type = type')
  (compiled : Compiled o p) (correct : o.Correct multi) (scene : Scene o f seen slots)

include single compiled correct scene

theorem typed_call
    (callable : (layout o seen slots).Callable g sig)
    (result : result?.isSome = true ↔ sig.result ≠ .void)
    (passed : Forall₂ (Passed (layout o seen slots) f.Assigns) sig.params vs) :
    (Code.call g result? vs).Typed p f := by
  obtain ⟨d, -, callee, inside, name, code, params, void⟩ := compiled.callee correct scene callable
  obtain ⟨-, types, some⟩ :=
    (links_call compiled correct scene callable result passed).call rfl callee inside _
    (by rw [name]; rfl)
  refine .call inside rfl (by rw [name]; rfl) types (usedAs_passed single scene compiled passed)
    fun given => ?_
  have value : callee.result = .word := by
    have function := some.mp given
    rw [code.result] at function ⊢
    split
    · next isVoid => exact absurd (if_pos isVoid) function
    · rfl
  refine ⟨?_, some.mp given⟩
  rw [value]
  cases result? with
  | none => exact absurd rfl given
  | some n => rfl

theorem typed_issued
    (issued : Issued (layout o seen slots) p.strings f.Assigns i) : i.Typed p f := by
  cases issued with
  | load cell => exact .load rfl rfl (usedAs_cell single scene compiled cell) rfl
  | store cell word =>
    exact .store rfl rfl (usedAs_word single word) (usedAs_cell single scene compiled cell) rfl rfl
  | copy holds _ holds' =>
    exact .blit rfl rfl (usedAs_address single scene compiled holds')
      (usedAs_address single scene compiled holds) rfl
  | compute known left right =>
    rcases operation?_cases known with arithmetic | comparison
    · exact .arith arithmetic rfl (usedAs_word single left) (usedAs_word single right) nofun
    · exact .compare comparison rfl (usedAs_word single left) (usedAs_word single right) nofun rfl
  | extend word => exact .extend rfl rfl (usedAs_word single word) rfl
  | scale long => exact .arith rfl rfl (usedAs_temp single long) (.const nofun) nofun
  | shift holds long =>
    obtain ⟨i, inside, result, type⟩ := long
    have address : Value.UsedAs p f (.temp _) .address := .temp fun given has => by
      rw [single has (.instr inside result), type]
      rfl
    exact .arith rfl rfl (usedAs_address single scene compiled holds) address nofun
  | call callable result passed => exact typed_call single compiled correct scene callable result passed
  | @print _ value _ format values =>
    have declared : ⟨"printf", [.address], .word, true⟩ ∈ p.externs := by
      simp [compiled.externs, externs]
    refine .callExtern declared rfl rfl rfl nofun (.cons (usedAs_literal format) ?_) rfl
    cases value with
    | none => exact .nil
    | some v =>
      refine .cons ?_ .nil
      cases values v rfl with
      | word word => exact usedAs_word single word
      | text literal => exact usedAs_literal literal
  | scan format cell =>
    have declared : ⟨"scanf", [.address], .word, true⟩ ∈ p.externs := by
      simp [compiled.externs, externs]
    have used := Forall₂.cons (usedAs_literal format)
      (.cons (usedAs_cell single scene compiled cell) .nil)
    exact .callExtern declared rfl rfl rfl nofun used rfl
  | jump => exact .jump rfl rfl rfl
  | branch word => exact .branch rfl rfl (usedAs_word single word) rfl

end Instructions

section Routine

variable {o : Outline} {p : Ir.Program} {f : Ir.Func} {d : Definition}
  (single : ∀ {key type type'}, f.HasType key type → f.HasType key type' → type = type')
  (code : RoutineCode o p.strings d f)

include single code

theorem usedAs_param {i : Nat} {v : String × VarType} (here : d.header.params[i]? = some v) :
    Value.UsedAs p f (.temp (parameterTemp v.1)) (if v.2.isArray then .address else .word) := by
  have listed : paramOf v ∈ f.params := by
    rw [code.params]
    exact mem_map_of_mem (mem_of_getElem? here)
  exact .temp fun given has => congrArg Ty.register (single has (.param listed))

variable (member : d ∈ definitions [] o.headers)

include member

theorem typed_entered {i : Instr} (entered : Entered d.header i) : i.Typed p f := by
  have scene := code.scene member
  cases entered with
  | alloc here => exact .alloc rfl rfl rfl
  | array here isArray =>
    have param := usedAs_param single code here
    rw [if_pos isArray] at param
    exact .blit rfl rfl param (usedAs_slot single scene (slots_param here)) rfl
  | word here isWord =>
    have param := usedAs_param single code here
    rw [isWord] at param
    exact .store rfl rfl param (usedAs_slot single scene (slots_param here)) rfl rfl
  | clear function =>
    exact .store rfl rfl (.const nofun) (usedAs_slot single scene (own_slot function)) rfl rfl

theorem typed_left (left : Left d.header f.Assigns i) : i.Typed p f := by
  cases left with
  | plain void => exact .leave rfl rfl (by rw [code.result, if_pos void]) rfl
  | fetch function =>
    exact .load rfl rfl (usedAs_slot single (code.scene member) (own_slot function)) rfl
  | value function assigned =>
    have word : f.result = .word := by rw [code.result, if_neg function]
    exact .leaveWith rfl rfl (by rw [word]; exact usedAs_temp single assigned)
      (by rw [word]; exact nofun) rfl

end Routine

/-! ## Programs -/

section Program

variable {o : Outline} {p : Ir.Program} {multi : Bool} (compiled : Compiled o p)
  (correct : o.Correct multi)

include compiled correct

/-- The parameters of a function are kept apart. -/
theorem Compiled.paramKeys_nodup (member : f ∈ p.funcs) : f.paramKeys.Nodup := by
  rcases compiled.cases member with main | ⟨d, defined, code⟩
  · rw [Ir.Func.paramKeys, main.params]
    exact nodup_nil
  · obtain ⟨pre, h, post, body, split, bodied, rfl⟩ := mem_definitions.mp defined
    have slots := correct.distinct h (by simp [split]) (by rw [bodied]; rfl)
    have names : (h.params.map Prod.fst).Nodup := by
      rw [Header.slots, append_assoc, map_append] at slots
      exact slots.of_append_left
    have keys : f.paramKeys = (h.params.map Prod.fst).map fun x => (parameterTemp x).key := by
      rw [Ir.Func.paramKeys, code.params, map_map, map_map]
      rfl
    rw [keys]
    exact names.map fun _ _ => key_parameterTemp_inj

/-- The code of a correct program is well typed. -/
theorem Compiled.typed (wellFormed : p.WellFormed) : p.Typed where
  names := (compiled.symbols_nodup correct).of_append_left.of_append_right
  params f member := compiled.paramKeys_nodup correct member
  instrs f member i inside := by
    have single {key : String} {type type' : Ty} (h : f.HasType key type)
        (h' : f.HasType key type') : type = type' :=
      h.unique (wellFormed f member) (compiled.paramKeys_nodup correct member) h'
    rcases compiled.instr_cases member inside with
      ⟨seen, slots, scene, body⟩ | ⟨d, defined, code, front | behind⟩ | ⟨main, rfl⟩
    · exact typed_issued single compiled correct scene body
    · exact typed_entered single code defined front
    · exact typed_left single code defined behind
    · exact .leaveWith rfl rfl (.const (by rw [main.result]; exact nofun))
        (by rw [main.result]; exact nofun) rfl

/-- The names in the code of a correct program can be resolved: what an instruction reads was
assigned further up, and what it refers to is declared. -/
theorem Compiled.resolves (member : f ∈ p.funcs) : f.Resolves p := by
  refine Ir.resolved_of_each fun before i after split v arg => ?_
  cases v with
  | temp t => exact mem_append.mpr ((compiled.soundFlow member).1.assigned split arg)
  | global name =>
    have links := (compiled.linked correct).instrs f member i (by simp [split])
    exact links.symbol arg
  | _ => trivial

end Program

/-- What lowering returns has a module of LLVM. It is well typed and declares the functions of the
program with their blocks, and the LLVM backend prints it. -/
theorem lower_llvm_typed {on : Switches Feature} {source : String} {t : Tree} {c : Settings}
    {p : Ir.Program} (read : Tree.ofSource on source = .ok t)
    (ok : (lower c t).code = .ok p) :
    ∃ m, Llvm.build p = .ok m ∧ m.Typed ∧ m.Declares p ∧ Backend.llvm.render p = .ok m.text := by
  obtain ⟨o, -, correct, compiled, wellFormed⟩ := compiled_of_ok (Tree.isProgram_of_ofSource read) ok
  obtain ⟨m, built, typed, declares⟩ := Llvm.build_typed (compiled.symbols_nodup correct) wellFormed
    (fun f member => compiled.resolves correct member) (compiled.typed correct wellFormed)
  refine ⟨m, built, typed, declares, ?_⟩
  rw [Backend.render, built]

theorem lower_llvm_typed_sample : ∃ t p, Tree.ofSource Feature.strict sample = .ok t ∧
    (lower {} t).code = .ok p ∧ p.funcs.map (·.name) = ["pas_g", "pas_f", "main"] ∧
    ∃ m, Llvm.build p = .ok m ∧ m.Typed ∧ m.Declares p ∧ Backend.llvm.render p = .ok m.text := by
  obtain ⟨t, p, read, ok, names⟩ := sample_compiles
  exact ⟨t, p, read, ok, names, lower_llvm_typed read ok⟩

end MiniPascal.Lower
